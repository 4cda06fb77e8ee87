/-
The three extraction paths agree.

`extract_entries_to` hands whole entries to its sink, `SinkProtocol`.  What is left is to
compare them with the other two paths.  `extract_entry` decodes the same folder with
more output allowed, and finds the same member.  The members of a folder follow each
other from the first byte of its output to the last.  And what `verify` has checked of
every folder is all that extraction will check.
-/
import Un7z.Proofs.VerifiedExtraction
import Un7z.Proofs.MemberReads

namespace Un7z

open Execute (DecodedFolder decodeFolder)

namespace Archive

variable {σ : Type} {codecs : Codecs} {archive : Archive}

/-! ### One entry on its own -/

/-- A folder that was decoded within the limits is decoded alike with more output allowed. -/
theorem FolderDecoded.again (h : archive.Sound) (halike : DecodesAlike codecs archive)
    {streams : StreamsInfo} (hstreams : archive.header.mainStreams = some streams)
    {folderIndex : Nat} {folder : Folder} {output : Bytes}
    (hdecoded : archive.FolderDecoded codecs streams folderIndex folder output) :
    ∃ maximum decoded, (folderDecodeMaximum folder archive.limits
        archive.limits.maxTotalOutputBytes).result = .ok maximum ∧
      (decodeFolder codecs archive.bytes streams folderIndex archive.password archive.limits
        maximum).result = .ok decoded ∧
      decoded.bytes = output ∧ decoded.crcMismatch = false ∧ output.length ≤ maximum := by
  obtain ⟨hfolder, ⟨remaining, maximum, decoded, hremaining, hmaximum, hdecode, rfl⟩, hcrc⟩ :=
    hdecoded
  obtain ⟨maximum', hmaximum', hle⟩ := folderDecodeMaximum_mono hmaximum hremaining
  have hsize := (h.decodeFolder_size hstreams hfolder hdecode).1.trans hle
  refine ⟨maximum', decoded, hmaximum', halike streams hstreams _ _ _ _ hdecode hsize, rfl, ?_,
    hsize⟩
  rw [decodeFolder_crc hfolder hdecode]
  cases hexpected : folder.crc with
  | none => rfl
  | some crc => simp [hcrc crc hexpected]

/-- **`extract_entry`** returns what a whole entry was. -/
theorem extractEntry_of_whole (h : archive.Sound) (halike : DecodesAlike codecs archive)
    {delivery : EntryDelivery} (hentry : archive.entries[delivery.index]? = some delivery.entry)
    (hdeliverable : deliverable delivery.entry) (hwhole : WholeEntry codecs archive delivery) :
    (archive.extractEntry codecs delivery.index).result = .ok delivery.bytes := by
  cases hstream : delivery.entry.stream with
  | none =>
      obtain ⟨hempty, hanti⟩ : delivery.entry.emptyFile = true ∧ delivery.entry.antiItem = false := by
        simpa [deliverable, hstream] using hdeliverable
      have hopen : (archive.openMember codecs delivery.index).result
          = .ok (.new [] 0 0 none false false delivery.index) := by
        rw [openMember, Metered.result_bind_ok (orFormat_eq_ok.mpr hentry), hanti, hstream, hempty]
        rfl
      have hranged : (MemberReader.new [] 0 0 none false false delivery.index).Ranged :=
        ⟨Nat.le_refl _, Nat.le_refl _, show 0 < 2 ^ 64 by decide⟩
      have hread := readMember_result hranged (MemberReader.reached_new _ _ _ _ _ _ _)
        (fun crc hcrc => absurd hcrc (by simp [MemberReader.new])) rfl
      have hbytes : delivery.bytes = [] := by
        rw [EntryDelivery.bytes, hwhole.empty hstream]
        rfl
      rw [extractEntry, Metered.result_bind_ok hopen, Metered.result_bind_ok rfl, hread, hbytes]
      rfl
  | some mapping =>
      obtain ⟨hcrc, streams, folder, output, start, stop, hstreams, hdecoded, hat, hbytes⟩ :=
        hwhole.member mapping hstream
      obtain ⟨hplaced, streams', folder', substream, hstreams', hfolder, hsubstream, hsize, -⟩ :=
        h.mapping (List.mem_of_getElem? hentry) hstream
      obtain rfl := Option.some.inj (hstreams.symm.trans hstreams')
      obtain rfl := Option.some.inj (hdecoded.1.symm.trans hfolder)
      obtain ⟨maximum, decoded, hmaximum, hdecode, rfl, hmismatch, hle⟩ :=
        hdecoded.again h halike hstreams
      obtain ⟨hallowed, hallowance, hlt, -⟩ :=
        folderDecodeMaximum_eq_ok hmaximum (List.ne_nil_of_mem (List.mem_of_getElem? hsubstream))
      have hanti : delivery.entry.antiItem = false := hplaced.antiItem (by rw [hstream]; rfl)
      have hentrySize : (checkEntrySize mapping.size archive.limits).result = .ok () := by
        rw [hsize]
        cases hdeclared : substream.size with
        | none => rfl
        | some size =>
            have hle := hallowed.entry substream (List.mem_of_getElem? hsubstream) size hdeclared
            exact checkLimit_of_le hle .entryOutputBytes
      have hlength : stop - start ≤ archive.limits.maxEntryOutputBytes := memberSize_le hmaximum hle hat
      have hopen : (archive.openMember codecs delivery.index).result = .ok (.new decoded.bytes start
          stop mapping.crc decoded.crcMismatch decoded.encrypted delivery.index) := by
        have harchive : (archive.decodeArchiveFolder codecs streams folder mapping.folderIndex
            maximum).result = .ok decoded := mapEncryptedError_eq_ok.mpr hdecode
        rw [openMember, Metered.result_bind_ok (orFormat_eq_ok.mpr hentry), hanti, hstream]
        show (archive.openStream codecs delivery.index mapping).result = _
        rw [openStream, Metered.result_bind_ok hentrySize,
          Metered.result_bind_ok (orFormat_eq_ok.mpr hstreams),
          Metered.result_bind_ok (orFormat_eq_ok.mpr hfolder), Metered.result_bind_ok hmaximum,
          Metered.result_bind_ok harchive,
          Metered.result_bind_ok (memberBounds_result (by omega) hat),
          Metered.result_bind_ok (orFormat_eq_ok.mpr (checkedSub_of_le hat.start_le)),
          Metered.result_bind_ok (checkLimit_of_le hlength _)]
        rfl
      have hranged : (MemberReader.new decoded.bytes start stop mapping.crc decoded.crcMismatch
          decoded.encrypted delivery.index).Ranged :=
        ⟨hat.start_le, hat.stop_le, show decoded.bytes.length < 2 ^ 64 by omega⟩
      have hmember : (MemberReader.new decoded.bytes start stop mapping.crc decoded.crcMismatch
          decoded.encrypted delivery.index).member = delivery.bytes := hbytes.symm
      have hread := readMember_result hranged (MemberReader.reached_new _ _ _ _ _ _ _)
        (by rw [hmember]; exact hcrc) hmismatch
      rw [extractEntry, Metered.result_bind_ok hopen,
        Metered.result_bind_ok (MemberReader.size_result hranged), hread, hmember]

/-! ### The members of a folder -/

/-- The streams of the members of a folder are its substreams, in order. -/
theorem folderMembers_map_fst {entries : List FileEntry} {folders : List Folder}
    (h : Mapped entries folders) {folderIndex : Nat} {folder : Folder}
    (hfolder : folders[folderIndex]? = some folder) :
    (folderMembers entries folderIndex).map (·.1)
      = substreamMappings folderIndex 0 folder.substreams := by
  have hstreams : (entries.zipIdx.filterMap fun p => p.1.stream.map (·, p.2)).map (·.1)
      = folderMajor 0 folders := by
    have hmap : ∀ p : FileEntry × Nat, (p.1.stream.map (·, p.2)).map (·.1) = p.1.stream := by
      intro p
      cases p.1.stream <;> rfl
    simp only [List.map_filterMap, hmap]
    rw [← h.streams]
    conv_rhs => rw [← List.zipIdx_map_fst 0 entries, List.filterMap_map]
    rfl
  have hfilter : (folderMajor 0 folders).filter (·.folderIndex = 0 + folderIndex)
      = substreamMappings (0 + folderIndex) 0 folder.substreams := folderMajor_filter folders hfolder
  rw [Nat.zero_add, ← hstreams, List.filter_map] at hfilter
  exact hfilter

theorem mem_folderMembers {entries : List FileEntry} {folderIndex index : Nat}
    {mapping : FileStream} (h : (mapping, index) ∈ folderMembers entries folderIndex) :
    ∃ entry, entries[index]? = some entry ∧ entry.stream = some mapping := by
  simp only [folderMembers, List.mem_filter, List.mem_filterMap, Prod.exists, Option.map_eq_some_iff,
    Prod.mk.injEq] at h
  obtain ⟨⟨entry, i, hmem, mapping', hstream, rfl, rfl⟩, -⟩ := h
  exact ⟨entry, List.mem_zipIdx_iff_getElem?.mp hmem, hstream⟩

/-! ### The log of a run that succeeded -/

section protocol

variable {log : SinkLog} {total : Nat} {done : List EntryDelivery} {stage : SinkStage}

/-- The chunks handed over for an entry that was delivered are its own. -/
theorem SinkProtocol.bytesOf (h : SinkProtocol codecs archive log (.ok total) done stage)
    {delivery : EntryDelivery} (hmem : delivery ∈ done) :
    log.bytesOf delivery.index = delivery.bytes := by
  obtain ⟨rfl, -, -⟩ := h.succeeded total rfl
  have hcalls := h.calls
  have hincreasing := h.increasing
  rw [SinkStage.calls, List.append_nil] at hcalls
  rw [SinkStage.deliveries, List.append_nil] at hincreasing
  have hlog : log.bytesOf delivery.index
      = (log.map (·.1)).flatMap (SinkCall.bytesFor delivery.index) := by
    rw [List.flatMap_map]
    rfl
  have hone : ∀ d : EntryDelivery, d.calls.flatMap (SinkCall.bytesFor delivery.index)
      = if d.index = delivery.index then d.bytes else [] := by
    intro d
    have hchunks : ∀ pieces : List Bytes, (pieces.map (SinkCall.writeEntry d.index ·)).flatMap
        (SinkCall.bytesFor delivery.index) = if d.index = delivery.index then pieces.flatten else [] := by
      intro pieces
      rw [List.flatMap_map]
      split
      · next heq => simp [SinkCall.bytesFor, heq, List.flatMap_def]
      · next hne => simp [SinkCall.bytesFor, hne]
    simp [EntryDelivery.calls, EntryDelivery.opened, SinkCall.bytesFor, hchunks, EntryDelivery.bytes]
  rw [hlog, hcalls, List.flatMap_assoc]
  simp only [hone]
  clear hcalls hlog hone h
  induction done with
  | nil => exact absurd hmem List.not_mem_nil
  | cons first rest ih =>
      rw [List.map_cons, List.pairwise_cons] at hincreasing
      rw [List.flatMap_cons]
      rcases List.mem_cons.mp hmem with rfl | hmem
      · have hlater : rest.flatMap (fun d => if d.index = delivery.index then d.bytes else []) = [] := by
          rw [List.flatMap_eq_nil_iff]
          intro d hd
          have := hincreasing.1 d.index (List.mem_map_of_mem hd)
          rw [if_neg (by omega)]
        rw [if_pos rfl, hlater, List.append_nil]
      · have := hincreasing.1 delivery.index (List.mem_map_of_mem hmem)
        rw [if_neg (by omega), List.nil_append]
        exact ih hmem hincreasing.2

/-- An entry that was begun was delivered. -/
theorem SinkProtocol.mem_of_began (h : SinkProtocol codecs archive log (.ok total) done stage)
    {memberIndex : Nat} (hbegan : log.Began memberIndex) :
    ∃ delivery ∈ done, delivery.index = memberIndex := by
  obtain ⟨rfl, -, -⟩ := h.succeeded total rfl
  obtain ⟨entry, size, answer, hmem⟩ := hbegan
  have hcall := List.mem_map_of_mem (f := (·.1)) hmem
  rw [h.calls, SinkStage.calls, List.append_nil, List.mem_flatMap] at hcall
  obtain ⟨delivery, hdelivery, hcall⟩ := hcall
  refine ⟨delivery, hdelivery, ?_⟩
  simp only [EntryDelivery.calls, EntryDelivery.opened, List.mem_append, List.mem_cons,
    SinkCall.beginEntry.injEq, List.mem_map, reduceCtorEq, and_false, exists_false, or_false,
    List.not_mem_nil] at hcall
  exact hcall.1.symm

/-- An entry with something to deliver was delivered. -/
theorem SinkProtocol.mem_of_deliverable
    (h : SinkProtocol codecs archive log (.ok total) done stage) {memberIndex : Nat}
    {entry : FileEntry} (hentry : archive.entries[memberIndex]? = some entry)
    (hdeliverable : deliverable entry) :
    ∃ delivery ∈ done, delivery.index = memberIndex ∧ delivery.entry = entry := by
  obtain ⟨rfl, hindices, -⟩ := h.succeeded total rfl
  have hin : memberIndex ∈ deliverableIndices archive.entries :=
    List.mem_map.mpr ⟨(entry, memberIndex), List.mem_filter.mpr
      ⟨List.mem_zipIdx_iff_getElem?.mpr hentry, hdeliverable⟩, rfl⟩
  rw [← hindices] at hin
  obtain ⟨delivery, hmem, hindex⟩ := List.mem_map.mp hin
  have hsame := h.entries delivery (List.mem_append_left _ hmem)
  rw [hindex, hentry] at hsame
  exact ⟨delivery, hmem, hindex, (Option.some.inj hsame).symm⟩

theorem SinkProtocol.deliverable (h : SinkProtocol codecs archive log (.ok total) done stage)
    {delivery : EntryDelivery} (hmem : delivery ∈ done) :
    Archive.deliverable delivery.entry := by
  obtain ⟨rfl, hindices, -⟩ := h.succeeded total rfl
  have hin : delivery.index ∈ deliverableIndices archive.entries := by
    rw [← hindices]
    exact List.mem_map_of_mem hmem
  obtain ⟨⟨entry, index⟩, hfilter, hindex⟩ := List.mem_map.mp hin
  obtain ⟨hentry, hdeliverable⟩ := List.mem_filter.mp hfilter
  have hsame := h.entries delivery (List.mem_append_left _ hmem)
  rw [← hindex, List.mem_zipIdx_iff_getElem?.mp hentry] at hsame
  rwa [← Option.some.inj hsame]

end protocol

/-! ### The output of a folder -/

/-- A folder has one output. -/
theorem FolderDecoded.unique (h : archive.Sound) (halike : DecodesAlike codecs archive)
    {streams : StreamsInfo} (hstreams : archive.header.mainStreams = some streams)
    {folderIndex : Nat} {folder folder' : Folder} {output output' : Bytes}
    (hdecoded : archive.FolderDecoded codecs streams folderIndex folder output)
    (hdecoded' : archive.FolderDecoded codecs streams folderIndex folder' output') :
    folder = folder' ∧ output = output' := by
  obtain rfl := Option.some.inj (hdecoded.1.symm.trans hdecoded'.1)
  obtain ⟨maximum, decoded, hmaximum, hdecode, rfl, -, -⟩ := hdecoded.again h halike hstreams
  obtain ⟨maximum', decoded', hmaximum', hdecode', rfl, -, -⟩ := hdecoded'.again h halike hstreams
  obtain rfl := Except.ok.inj (hmaximum.symm.trans hmaximum')
  rw [Except.ok.inj (hdecode.symm.trans hdecode')]
  exact ⟨rfl, rfl⟩

/-- The lengths of the members before one add up to where it starts. -/
theorem sum_lengths_eq_memberStart {folder : Folder} {folderSize : Nat} {lengths : List Nat}
    (hmember : ∀ k, k < folder.substreams.length → ∃ start stop,
      folder.MemberAt k folderSize start stop ∧ lengths[k]? = some (stop - start)) :
    ∀ k, k < folder.substreams.length → (lengths.take k).sum = folder.memberStart k := by
  intro k
  induction k with
  | zero => exact fun _ => by simp [Folder.memberStart]
  | succ k ih =>
      intro hk
      obtain ⟨start, stop, hat, hlength⟩ := hmember k (by omega)
      have hstart := hat.start_eq
      have hle := hat.start_le
      have hstop := (hat.stop_eq hk).1
      have hsum := ih (by omega)
      rw [List.take_add_one, hlength, List.sum_append, hsum, ← hstart]
      simp only [Option.toList_some, List.sum_cons, List.sum_nil]
      omega

/-- The lengths of all members add up to the output of their folder. -/
theorem sum_lengths_eq_folderSize (h : archive.Sound) {streams : StreamsInfo}
    (hstreams : archive.header.mainStreams = some streams) {folderIndex : Nat} {folder : Folder}
    {output : Bytes} (hdecoded : archive.FolderDecoded codecs streams folderIndex folder output)
    {lengths : List Nat} (hsome : lengths ≠ []) (hcount : lengths.length = folder.substreams.length)
    (hmember : ∀ k, k < folder.substreams.length → ∃ start stop,
      folder.MemberAt k output.length start stop ∧ lengths[k]? = some (stop - start)) :
    lengths.sum = output.length := by
  obtain ⟨hfolder, ⟨remaining, maximum, decoded, -, hmaximum, hdecode, rfl⟩, -⟩ := hdecoded
  have hpos := List.length_pos_iff.mpr hsome
  obtain ⟨last, hlast⟩ : ∃ last, last + 1 = folder.substreams.length := ⟨lengths.length - 1, by omega⟩
  obtain ⟨start, stop, hat, hlength⟩ := hmember last (by omega)
  have hsum := sum_lengths_eq_memberStart hmember last (by omega)
  have hstop := lastMember_stop hmaximum (h.decodeFolder_size hstreams hfolder hdecode).2 hat hlast
  have htake := List.take_length (l := lengths)
  rw [hcount, ← hlast, List.take_add_one, hlength] at htake
  have hle := hat.start_le
  have hstart := hat.start_eq
  rw [← htake, List.sum_append, hsum, ← hstart, ← hstop]
  simp only [Option.toList_some, List.sum_cons, List.sum_nil]
  omega

/-- Every entry of a folder was delivered, as its slice of one output. -/
theorem SinkProtocol.folderMember {log : SinkLog} {total : Nat} {done : List EntryDelivery} {stage : SinkStage}
    (hprotocol : SinkProtocol codecs archive log (.ok total) done stage)
    {folderIndex : Nat} {member : FileStream × Nat}
    (hmem : member ∈ folderMembers archive.entries folderIndex) :
    ∃ streams folder output start stop, archive.header.mainStreams = some streams ∧
      FolderDecoded codecs archive streams folderIndex folder output ∧
      folder.MemberAt member.1.substreamIndex output.length start stop ∧
      log.bytesOf member.2 = (output.drop start).take (stop - start) := by
  have hfolder : member.1.folderIndex = folderIndex := by
    simpa using (List.mem_filter.mp hmem).2
  obtain ⟨entry, hentry, hstream⟩ := mem_folderMembers hmem
  obtain ⟨delivery, hdelivery, hindex, rfl⟩ := hprotocol.mem_of_deliverable hentry
    (by rw [Archive.deliverable, hstream]; rfl)
  obtain ⟨-, streams, folder, output, start, stop, hstreams, hdecoded, hat, hbytes⟩ :=
    (hprotocol.whole delivery hdelivery).member _ hstream
  rw [hfolder] at hdecoded
  refine ⟨streams, folder, output, start, stop, hstreams, hdecoded, hat, ?_⟩
  rw [← hindex, hprotocol.bytesOf hdelivery, hbytes]

/-- **The members of a folder make up its output.** -/
theorem SinkProtocol.folderCovered (h : archive.Sound) (halike : DecodesAlike codecs archive)
    {log : SinkLog} {total : Nat} {done : List EntryDelivery} {stage : SinkStage}
    (hprotocol : SinkProtocol codecs archive log (.ok total) done stage)
    {folderIndex : Nat} (hsome : folderMembers archive.entries folderIndex ≠ []) :
    ∃ folder output, FolderCovered codecs archive log folderIndex folder output := by
  obtain ⟨first, hfirst⟩ := List.exists_mem_of_ne_nil _ hsome
  obtain ⟨streams, folder, output, -, -, hstreams, hdecoded, -⟩ :=
    hprotocol.folderMember hfirst
  have hmapped : Mapped archive.entries streams.folders := by
    rcases h.mapped with hmapped | hnone
    · rwa [hstreams] at hmapped
    · rw [hnone] at hsome
      exact absurd rfl hsome
  have hstream := folderMembers_map_fst hmapped hdecoded.1
  have hcount : (folderMembers archive.entries folderIndex).length = folder.substreams.length := by
    simpa [substreamMappings] using congrArg List.length hstream
  -- member number `j` is substream number `j`
  have hmember : ∀ (j : Nat) (member : FileStream × Nat),
      (folderMembers archive.entries folderIndex)[j]? = some member →
      member.1.substreamIndex = j ∧ ∃ start stop, folder.MemberAt j output.length start stop ∧
        log.bytesOf member.2 = (output.drop start).take (stop - start) ∧
        (log.bytesOf member.2).length = stop - start := by
    intro j member hj
    have hindex : member.1.substreamIndex = j := by
      have hmapping := congrArg (·[j]?) hstream
      simp only [List.getElem?_map, hj, substreamMappings, List.getElem?_zipIdx,
        Option.map_some] at hmapping
      cases hsubstream : folder.substreams[j]? with
      | none => rw [hsubstream] at hmapping; exact absurd hmapping (by simp)
      | some substream =>
          rw [hsubstream] at hmapping
          rw [Option.some.inj hmapping]
          exact Nat.zero_add j
    obtain ⟨streams', folder', output', start, stop, hstreams', hdecoded', hat, hbytes⟩ :=
      hprotocol.folderMember (List.mem_of_getElem? hj)
    obtain rfl := Option.some.inj (hstreams.symm.trans hstreams')
    obtain ⟨rfl, rfl⟩ := hdecoded.unique h halike hstreams hdecoded'
    have hle := hat.start_le
    have hstop := hat.stop_le
    refine ⟨hindex, start, stop, hindex ▸ hat, hbytes, ?_⟩
    rw [hbytes, List.length_take, List.length_drop]
    omega
  have hlengths : ∀ k, k < folder.substreams.length → ∃ start stop,
      folder.MemberAt k output.length start stop ∧
      ((folderMembers archive.entries folderIndex).map fun member =>
        (log.bytesOf member.2).length)[k]? = some (stop - start) := by
    intro k hk
    have hget := List.getElem?_eq_getElem (hcount ▸ hk)
    obtain ⟨-, start, stop, hat, -, hlength⟩ := hmember k _ hget
    exact ⟨start, stop, hat, by rw [List.getElem?_map, hget, Option.map_some, hlength]⟩
  have hsum := sum_lengths_eq_memberStart hlengths
  have htotal := sum_lengths_eq_folderSize h hstreams hdecoded (mt List.map_eq_nil_iff.mp hsome)
    ((List.length_map _).trans hcount) hlengths
  refine ⟨folder, output, ⟨streams, hstreams, hdecoded⟩, fun j member hj => ?_, ?_, ?_, ?_⟩
  · have hk : j < folder.substreams.length := hcount ▸ (List.getElem?_eq_some_iff.mp hj).1
    obtain ⟨hindex, start, stop, hat, hbytes, hlength⟩ := hmember j member hj
    have hle := hat.start_le
    have hstart := hat.start_eq
    refine ⟨(start, stop), ?_, hindex ▸ hat, hbytes⟩
    rw [deliveredRanges, Tiling.getElem?_tile _ 0 j (stop - start)
      (by rw [List.getElem?_map, hj, Option.map_some, hlength]), hsum j hk, ← hstart]
    exact congrArg some (Prod.ext (Nat.zero_add _) (by simp only; omega))
  · exact (Tiling.pairwise_tile _ 0).imp Tiling.disjoint_of_before
  · rw [deliveredRanges, Tiling.iUnion_tile, htotal, Nat.zero_add]
  · refine Tiling.flatten_of_tile _ (fun j piece hpiece => ?_) ?_
    · rw [List.getElem?_map, Option.map_eq_some_iff] at hpiece
      obtain ⟨member, hj, rfl⟩ := hpiece
      have hk : j < folder.substreams.length := hcount ▸ (List.getElem?_eq_some_iff.mp hj).1
      obtain ⟨-, start, stop, hat, hbytes, hlength⟩ := hmember j member hj
      have hoffset := (hsum j hk).trans hat.start_eq.symm
      rw [List.map_map, hlength, hbytes]
      exact congrArg (fun offset => (output.drop offset).take (stop - start)) hoffset.symm
    · rw [List.map_map]
      exact htotal

/-! ### Agreement -/

/-- An archive of two files, `a` and `b`, with one byte each in a folder that is a copy. -/
def twoFilesBytes : Bytes :=
  [55, 122, 188, 175, 39, 28, 0, 4, 183, 1, 206, 32, 2, 0, 0, 0, 0, 0, 0, 0, 40, 0, 0, 0, 0, 0, 0,
    0, 132, 49, 81, 211, 104, 105, 1, 4, 6, 0, 1, 9, 2, 0, 7, 11, 1, 0, 1, 1, 0, 12, 2, 0, 8, 13, 2,
    9, 1, 0, 0, 5, 2, 17, 9, 0, 97, 0, 0, 0, 98, 0, 0, 0, 0, 0]

def twoFilesStreams : StreamsInfo :=
  ⟨0, [⟨32, some 2, none⟩], [⟨[⟨[0], 0, 1, 0, 1, [], none⟩], [], [0], [some 2], 0, [0], none,
    [⟨some 1, none⟩, ⟨some 1, none⟩], 0, 0⟩], 2⟩

def twoFiles : Archive where
  bytes := twoFilesBytes
  header := ⟨[], none, some twoFilesStreams,
    some ⟨[⟨some [97], true, false, false, none, none, none, none, none, some ⟨0, 0, some 1, none⟩⟩,
      ⟨some [98], true, false, false, none, none, none, none, none, some ⟨0, 1, some 1, none⟩⟩],
      [], []⟩⟩
  limits := {}
  password := none
  resources := ⟨74, 21, 0, 95⟩

/-- A sink that takes everything and keeps nothing. -/
def quietSink : EntrySink Unit :=
  ⟨fun _ _ _ _ => (.ok (), ()), fun _ _ _ => (.ok (), ()), fun _ _ => (.ok (), ())⟩

theorem twoFiles_decodeFolder (maximum : Nat) :
    (decodeFolder Execute.noCodecs twoFilesBytes twoFilesStreams 0 none {} maximum).result
      = if 2 ≤ maximum then .ok ⟨[104, 105], false, false⟩
        else .error (.limitExceeded .totalOutputBytes 2 maximum) := by
  rcases maximum with _ | _ | _ <;> rfl

theorem twoFiles_decodesAlike : DecodesAlike Execute.noCodecs twoFiles := by
  intro streams hstreams folderIndex maximum maximum' decoded hdecode hle
  obtain rfl : twoFilesStreams = streams := Option.some.inj hstreams
  cases folderIndex with
  | zero =>
      have hdecode := (twoFiles_decodeFolder maximum).symm.trans hdecode
      split at hdecode
      · obtain rfl := Except.ok.inj hdecode
        exact (twoFiles_decodeFolder maximum').trans (if_pos hle)
      · exact absurd hdecode (by simp)
  | succ folderIndex => exact absurd hdecode (by simp [decodeFolder, twoFilesStreams])

def twoFilesLog : SinkLog :=
  twoFiles.entries.zipIdx.flatMap fun p =>
    [(.beginEntry p.2 p.1 1, .ok ()), (.writeEntry p.2 [104 + UInt8.ofNat p.2], .ok ()),
      (.finishEntry p.2, .ok ())]

end Archive

end Un7z
