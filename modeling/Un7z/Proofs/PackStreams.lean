/-
Who owns the packed bytes.

A pack stream's range is checked against the archive once, when `validatePackStreams`
lays the section's sizes end to end, and the overlap check at the end sees one range
for each section.  Two facts are put together here: the streams of a section are a
tiling of its range, and the ranges of the sections do not overlap, so no two
nonempty streams share a byte.

The other half is about the cursor `assigned` of `validateFolders`.  Each folder takes
as many streams as it has packed inputs, and the cursor ends at the number of streams,
so reading input `k` of a folder as stream `first_pack_stream + k` uses every stream
once: that is the bijection between a sum of intervals and an interval.
-/
import Un7z.Lib.Tiling
import Un7z.Validate

namespace Un7z

open Tiling (Before points tile)

/-! ### What the result says -/

namespace PackStream

/-- The half-open byte range of a packed stream. -/
def range (stream : PackStream) : Nat × Nat := (stream.offset, stream.offset + stream.size.getD 0)

/-- The archive offsets a packed stream covers. -/
def offsets (stream : PackStream) : Set Nat := points stream.range

/-- The range is known, and lies in the bytes between the two headers. -/
def Inside (stream : PackStream) (envelope : HeaderEnvelope) (archiveBytes : Bytes) : Prop :=
  stream.size.isSome ∧
    envelope.signatureOffset + fixedHeaderSize ≤ stream.range.1 ∧
    stream.range.2 ≤ envelope.nextHeaderOffset ∧ stream.range.2 ≤ archiveBytes.length

end PackStream

namespace StreamsInfo

/-- A packed input: a folder, and a position among its packed indices. -/
abbrev PackedInput (streams : StreamsInfo) : Type :=
  (f : Fin streams.folders.length) × Fin (streams.folders[f].packedInputIndices.length)

/-- The pack stream that feeds a packed input. -/
def packStreamOf (streams : StreamsInfo) (input : streams.PackedInput) : Nat :=
  streams.folders[input.1].firstPackStream + input.2

end StreamsInfo

namespace ArchiveHeader

/-- The stream sections of a header. -/
def sections (header : ArchiveHeader) : List StreamsInfo :=
  header.additionalStreams.toList ++ header.mainStreams.toList

/-- All pack streams of a header, additional and main. -/
def packStreams (header : ArchiveHeader) : List PackStream :=
  header.sections.flatMap (·.packStreams)

end ArchiveHeader

namespace Validate

/-! ### The streams of one section -/

/-- The stream loop lays the sizes end to end, each inside the archive. -/
theorem validatePackStreams_eq_ok {crcs : Option (List (Option UInt32))}
    {envelope : HeaderEnvelope} {archiveBytes : Bytes} (sizes : List Nat) :
    ∀ {index offset : Nat} {streams : List PackStream} {last : Nat},
      (validatePackStreams crcs envelope archiveBytes index sizes offset).result
        = .ok (streams, last) →
      streams.map PackStream.range = tile offset sizes ∧ last = offset + sizes.sum ∧
        ∀ stream ∈ streams, stream.size.isSome ∧ stream.range.2 ≤ envelope.nextHeaderOffset ∧
          stream.range.2 ≤ archiveBytes.length ∧ stream.range.2 < 2 ^ 64 := by
  induction sizes with
  | nil =>
      intro index offset streams last h
      obtain ⟨rfl, rfl⟩ : streams = [] ∧ last = offset := by
        simpa [validatePackStreams, eq_comm] using h
      exact ⟨rfl, rfl, fun _ hmem => absurd hmem List.not_mem_nil⟩
  | cons rawSize sizes ih =>
      intro index offset streams last h
      simp only [validatePackStreams, Metered.bind_eq_ok, refuse_eq_ok, refuseFormat_eq_ok,
        orFormat_eq_ok, checkedAdd_eq_some, checkedRange_eq_ok, Prod.exists, Metered.result_pure,
        Except.ok.injEq, Prod.mk.injEq] at h
      obtain ⟨_, -, -, stop, ⟨hlt, rfl⟩, hnext, _, ⟨-, hinside, -⟩, crc, -, rest, last', hrest,
        rfl, rfl⟩ := h
      obtain ⟨htile, rfl, hall⟩ := ih hrest
      refine ⟨?_, ?_, ?_⟩
      · simp [PackStream.range, htile]
      · rw [List.sum_cons, Nat.add_assoc]
      · intro stream hmem
        rcases List.mem_cons.mp hmem with rfl | hmem
        · exact ⟨rfl, Nat.not_lt.mp hnext, hinside, hlt⟩
        · exact hall stream hmem

/-- What one section adds to the ranges that are checked for overlap. -/
def sectionRange (first last : Nat) : List (Nat × Nat) := if last > first then [(first, last)] else []

/-- The streams of an accepted section tile one range, which is what the section adds. -/
theorem validatePackRanges_eq_ok {pack : RawPackInfo} {envelope : HeaderEnvelope}
    {archiveBytes : Bytes} {ranges ranges' : List (Nat × Nat)} {position : Nat}
    {streams : List PackStream}
    (h : (validatePackRanges (some pack) envelope archiveBytes ranges).result
      = .ok ((position, streams), ranges')) :
    ∃ first sizes, envelope.signatureOffset + fixedHeaderSize ≤ first ∧
      streams.map PackStream.range = tile first sizes ∧
      ranges' = ranges ++ sectionRange first (first + sizes.sum) ∧
      ∀ stream ∈ streams, stream.size.isSome ∧ stream.range.2 ≤ envelope.nextHeaderOffset ∧
        stream.range.2 ≤ archiveBytes.length ∧ stream.range.2 < 2 ^ 64 := by
  simp only [validatePackRanges, Metered.bind_eq_ok, refuseFormat_eq_ok, orFormat_eq_ok,
    checkedAdd_eq_some, Prod.exists, Metered.result_pure, Except.ok.injEq, Prod.mk.injEq] at h
  obtain ⟨sizes, -, _, -, -, -, fixedEnd, ⟨-, rfl⟩, first, ⟨-, rfl⟩, streams', last, hstreams,
    ⟨-, rfl⟩, rfl⟩ := h
  obtain ⟨htile, rfl, hall⟩ := validatePackStreams_eq_ok sizes hstreams
  refine ⟨_, sizes, Nat.le_add_right _ _, htile, ?_, hall⟩
  unfold sectionRange
  split <;> simp_all

/-! ### Folders and their packed inputs -/

/-- The pack streams a folder in the making takes. -/
def FolderDraft.packRange (draft : FolderDraft) : Nat × Nat :=
  (draft.firstPackStream, draft.firstPackStream + draft.packedInputIndices.length)

theorem validateFolderGraph_packed {raw : RawFolder} {graph : Graph.ValidatedGraph}
    (h : (Graph.validateFolderGraph raw).result = .ok graph) :
    graph.packedInputIndices.length = raw.packedStreams := by
  simp only [Graph.validateFolderGraph, Metered.bind_eq_ok, refuseFormat_eq_ok, Prod.exists,
    Metered.result_pure, Except.ok.injEq, not_not] at h
  obtain ⟨_, -, _, -, _, _, -, -, _, _, _, -, _, -, _, -, packed, -, hlength, _, -, _, -, _, -,
    rfl⟩ := h
  exact hlength

theorem validateFolder_packRange {raw : RawFolder} {crc : Option UInt32} {first : Nat}
    {limits : Limits} {draft : FolderDraft}
    (h : (validateFolder raw crc first limits).result = .ok draft) :
    draft.packRange = (first, first + raw.packedStreams) := by
  simp only [validateFolder, Metered.bind_eq_ok, refuseFormat_eq_ok, Prod.exists,
    Metered.result_pure, Except.ok.injEq] at h
  obtain ⟨_, -, _, _, -, -, graph, hgraph, -, _, -, rfl⟩ := h
  simp [FolderDraft.packRange, validateFolderGraph_packed hgraph]

/-- The cursor gives consecutive pack streams to consecutive folders. -/
theorem validateFolders_packRanges {crcs : Option (List (Option UInt32))} {limits : Limits}
    (raws : List RawFolder) :
    ∀ {index start stop : Nat} {drafts : List FolderDraft},
      (validateFolders crcs limits index raws start).result = .ok (drafts, stop) →
      drafts.map FolderDraft.packRange = tile start (drafts.map (·.packedInputIndices.length)) ∧
        stop = start + (drafts.map (·.packedInputIndices.length)).sum ∧
        (start < 2 ^ 64 → stop < 2 ^ 64) := by
  induction raws with
  | nil =>
      intro index start stop drafts h
      obtain ⟨rfl, rfl⟩ : drafts = [] ∧ stop = start := by
        simpa [validateFolders, eq_comm] using h
      exact ⟨rfl, rfl, id⟩
  | cons raw raws ih =>
      intro index start stop drafts h
      simp only [validateFolders, Metered.bind_eq_ok, orFormat_eq_ok, checkedAdd_eq_some,
        Prod.exists, Metered.result_pure, Except.ok.injEq, Prod.mk.injEq] at h
      obtain ⟨crc, -, draft, hdraft, _, ⟨hassigned, rfl⟩, rest, stop', hrest, rfl, rfl⟩ := h
      obtain ⟨htile, rfl, hlt⟩ := ih hrest
      have hrange := validateFolder_packRange hdraft
      obtain ⟨hfirst, hcount⟩ : draft.firstPackStream = start ∧
          draft.packedInputIndices.length = raw.packedStreams := by
        simp only [FolderDraft.packRange, Prod.mk.injEq] at hrange
        omega
      simp only [List.map_cons, Tiling.tile_cons, List.sum_cons, htile, hrange, hcount]
      exact ⟨trivial, by omega, fun _ => by omega⟩

/-- Giving a folder its substreams leaves the rest of it as it was drafted. -/
theorem assignSubstreams_map {β : Type} {counts : List Nat} {sizes : Option (List Nat)}
    {crcs : Option (List (Option UInt32))} {limits : Limits} {f : Folder → β}
    {g : FolderDraft → β} (hf : ∀ draft substreams, f (finishFolder draft substreams) = g draft)
    (drafts : List FolderDraft) :
    ∀ {index : Nat} {cursors cursors' : SubstreamCursors} {folders : List Folder},
      (assignSubstreams counts sizes crcs limits index drafts cursors).result
        = .ok (folders, cursors') →
      folders.map f = drafts.map g := by
  induction drafts with
  | nil =>
      intro index cursors cursors' folders h
      obtain ⟨rfl, -⟩ : folders = [] ∧ cursors' = cursors := by
        simpa [assignSubstreams, eq_comm] using h
      rfl
  | cons draft drafts ih =>
      intro index cursors cursors' folders h
      simp only [assignSubstreams, Metered.bind_eq_ok, Prod.exists, Metered.result_pure,
        Except.ok.injEq, Prod.mk.injEq] at h
      obtain ⟨_, -, _, -, _, -, substreams, _, _, -, rest, _, hrest, rfl, -⟩ := h
      simp [hf, ih hrest]

/-! ### One section -/

/-- What an accepted section guarantees: its streams tile `span`, and its folders own them. -/
structure Owned (streams : StreamsInfo) (envelope : HeaderEnvelope) (archiveBytes : Bytes)
    (span : Nat × Nat) : Prop where
  tiles : ∃ sizes, streams.packStreams.map PackStream.range = tile span.1 sizes ∧
    span.2 = span.1 + sizes.sum
  after : envelope.signatureOffset + fixedHeaderSize ≤ span.1
  inside : ∀ stream ∈ streams.packStreams, stream.size.isSome ∧
    stream.range.2 ≤ envelope.nextHeaderOffset ∧ stream.range.2 ≤ archiveBytes.length ∧
    stream.range.2 < 2 ^ 64
  count : streams.packStreams.length < 2 ^ 64
  owners : Set.BijOn streams.packStreamOf Set.univ (Set.Iio streams.packStreams.length)

namespace Owned

variable {streams : StreamsInfo} {envelope : HeaderEnvelope} {archiveBytes : Bytes}
  {span : Nat × Nat}

theorem span_le (h : Owned streams envelope archiveBytes span) : span.1 ≤ span.2 := by
  obtain ⟨sizes, -, hlast⟩ := h.tiles
  omega

theorem mem_span (h : Owned streams envelope archiveBytes span) {stream : PackStream}
    (hmem : stream ∈ streams.packStreams) : span.1 ≤ stream.range.1 ∧ stream.range.2 ≤ span.2 := by
  obtain ⟨sizes, htile, hlast⟩ := h.tiles
  have hrange : stream.range ∈ tile span.1 sizes := htile ▸ List.mem_map_of_mem hmem
  obtain ⟨hlo, -, hhi⟩ := Tiling.mem_tile sizes _ _ hrange
  exact ⟨hlo, hlast ▸ hhi⟩

theorem offsets_subset (h : Owned streams envelope archiveBytes span) {stream : PackStream}
    (hmem : stream ∈ streams.packStreams) : stream.offsets ⊆ points span :=
  Set.Ico_subset_Ico (h.mem_span hmem).1 (h.mem_span hmem).2

theorem stream_inside (h : Owned streams envelope archiveBytes span) {stream : PackStream}
    (hmem : stream ∈ streams.packStreams) : stream.Inside envelope archiveBytes := by
  obtain ⟨hsize, hnext, hlength, -⟩ := h.inside stream hmem
  exact ⟨hsize, Nat.le_trans h.after (h.mem_span hmem).1, hnext, hlength⟩

theorem pairwise_disjoint (h : Owned streams envelope archiveBytes span) :
    streams.packStreams.Pairwise fun a b => Disjoint a.offsets b.offsets := by
  obtain ⟨sizes, htile, -⟩ := h.tiles
  have hbefore : (streams.packStreams.map PackStream.range).Pairwise Before :=
    htile ▸ Tiling.pairwise_tile sizes _
  exact (List.pairwise_map.mp hbefore).imp Tiling.disjoint_of_before

end Owned

/-- Consecutive folder ranges that add up to the streams give each stream one owner. -/
theorem packStreamOf_bijOn {streams : StreamsInfo}
    (htile : streams.folders.map (fun f => (f.firstPackStream,
        f.firstPackStream + f.packedInputIndices.length))
      = tile 0 (streams.folders.map (·.packedInputIndices.length)))
    (htotal : streams.packStreams.length
      = (streams.folders.map (·.packedInputIndices.length)).sum) :
    Set.BijOn streams.packStreamOf Set.univ (Set.Iio streams.packStreams.length) := by
  refine Tiling.bijOn_positions (f := fun f => streams.folders[f].firstPackStream)
    (fun f => ?_) ?_
  · have hget := Tiling.getElem?_tile (streams.folders.map (·.packedInputIndices.length)) 0 f
      streams.folders[f].packedInputIndices.length (by simp)
    rw [← htile] at hget
    simp only [List.getElem?_map, List.getElem?_eq_getElem f.isLt,
      Option.map_some, Option.some.injEq, Prod.mk.injEq, Nat.zero_add] at hget
    exact hget.1.trans (Tiling.sum_take_map _ _ (Nat.le_of_lt f.isLt))
  · have hall := Tiling.sum_take_map (·.packedInputIndices.length) streams.folders le_rfl
    rw [List.take_of_length_le (by simp)] at hall
    exact htotal.trans hall

/-- An accepted stream section is owned, and adds its span to the ranges. -/
theorem validateStreams_owned {raw : RawStreamsInfo} {envelope : HeaderEnvelope}
    {archiveBytes : Bytes} {limits : Limits} {ranges ranges' : List (Nat × Nat)}
    {streams : StreamsInfo}
    (h : (validateStreams raw envelope archiveBytes limits ranges).result
      = .ok (streams, ranges')) :
    ∃ span, Owned streams envelope archiveBytes span ∧
      ranges' = ranges ++ sectionRange span.1 span.2 := by
  unfold validateStreams at h
  split at h
  case h_1 pack unpack _ _ =>
    simp only [validatePackedStreams, Metered.bind_eq_ok, refuseFormat_eq_ok, Prod.exists,
      Metered.result_pure, Except.ok.injEq, Prod.mk.injEq, not_not] at h
    obtain ⟨position, packStreams, ranges'', hpack, -, _, -, drafts, assigned, hdrafts, hassigned,
      -, folders, cursors, hfolders, -, -, rfl, rfl⟩ := h
    obtain ⟨first, sizes, hafter, htile, hranges, hinside⟩ := validatePackRanges_eq_ok hpack
    obtain ⟨hdraftTile, htotal, hcount⟩ := validateFolders_packRanges _ hdrafts
    have hmap : folders.map (fun f => (f.firstPackStream,
        f.firstPackStream + f.packedInputIndices.length)) = drafts.map FolderDraft.packRange :=
      assignSubstreams_map (fun _ _ => rfl) drafts hfolders
    have hcounts : folders.map (·.packedInputIndices.length)
        = drafts.map (·.packedInputIndices.length) :=
      assignSubstreams_map (fun _ _ => rfl) drafts hfolders
    have hlt : packStreams.length < 2 ^ 64 := hassigned ▸ hcount (by decide)
    refine ⟨(first, first + sizes.sum), ⟨⟨sizes, htile, rfl⟩, hafter, hinside, hlt, ?_⟩, hranges⟩
    refine packStreamOf_bijOn ?_ ?_
    · simp only [hmap, hcounts, hdraftTile]
    · simp only [hcounts]
      omega
  case h_2 =>
    simp only [refuseFormat_eq_ok, Metered.result_pure, Except.ok.injEq, Prod.mk.injEq] at h
    obtain ⟨-, rfl, rfl⟩ := h
    refine ⟨(envelope.signatureOffset + fixedHeaderSize,
      envelope.signatureOffset + fixedHeaderSize), ⟨⟨[], rfl, rfl⟩, le_rfl, ?_, by simp, ?_⟩, ?_⟩
    · exact fun _ hmem => absurd hmem List.not_mem_nil
    · exact packStreamOf_bijOn rfl rfl
    · simp [sectionRange]
  case h_3 => exact absurd h (by simp)

/-! ### Both sections -/

/-- The overlap check is a chain condition on the sorted ranges. -/
theorem isChain_of_not_overlap (ranges : List (Nat × Nat)) :
    ∀ {previous : Option Nat}, sortedRangesOverlap previous ranges = false →
      ranges.IsChain Before := by
  induction ranges with
  | nil => intro previous _; exact List.isChain_nil
  | cons a rest ih =>
      intro previous h
      obtain ⟨-, hrest⟩ := Bool.or_eq_false_iff.mp h
      cases rest with
      | nil => exact List.isChain_singleton a
      | cons b rest =>
          refine List.isChain_cons_cons.mpr ⟨?_, ih hrest⟩
          obtain ⟨hab, -⟩ := Bool.or_eq_false_iff.mp hrest
          exact Nat.not_lt.mp (by simpa using hab)

theorem checkNonOverlappingRanges_disjoint {ranges : List (Nat × Nat)} {u : Unit}
    (hle : ∀ r ∈ ranges, r.1 ≤ r.2) (h : (checkNonOverlappingRanges ranges).result = .ok u) :
    ranges.Pairwise fun a b => Disjoint (points a) (points b) := by
  simp only [checkNonOverlappingRanges, refuseFormat_eq_ok, Bool.not_eq_true] at h
  exact Tiling.pairwise_disjoint_of_perm (List.perm_insertionSort _ ranges) hle
    (isChain_of_not_overlap _ h.1)

/-- A section adds its span, or nothing because the span is empty. -/
theorem points_disjoint_of_sections {a b : Nat × Nat}
    (h : (sectionRange a.1 a.2 ++ sectionRange b.1 b.2).Pairwise
      fun r s => Disjoint (points r) (points s)) :
    Disjoint (points a) (points b) := by
  by_cases ha : a.2 > a.1
  · by_cases hb : b.2 > b.1
    · simpa [sectionRange, ha, hb] using h
    · have hempty : points b = ∅ := Set.Ico_eq_empty (by omega)
      simp [hempty]
  · have hempty : points a = ∅ := Set.Ico_eq_empty (by omega)
    simp [hempty]

/-- A section that may be missing: then there is nothing to own. -/
theorem validateStreamsSection_owned {raw : Option RawStreamsInfo} {envelope : HeaderEnvelope}
    {archiveBytes : Bytes} {limits : Limits} {ranges ranges' : List (Nat × Nat)}
    {streams : Option StreamsInfo}
    (h : (validateStreamsSection raw envelope archiveBytes limits ranges).result
      = .ok (streams, ranges')) :
    ∃ span, (∀ s ∈ streams, Owned s envelope archiveBytes span) ∧ span.1 ≤ span.2 ∧
      ranges' = ranges ++ sectionRange span.1 span.2 := by
  cases raw with
  | none =>
      simp only [validateStreamsSection, Metered.result_pure, Except.ok.injEq,
        Prod.mk.injEq] at h
      obtain ⟨rfl, rfl⟩ := h
      exact ⟨(0, 0), by simp, le_rfl, by simp [sectionRange]⟩
  | some raw =>
      simp only [validateStreamsSection, Metered.bind_eq_ok, Prod.exists, Metered.result_pure,
        Except.ok.injEq, Prod.mk.injEq] at h
      obtain ⟨s, _, hstreams, rfl, rfl⟩ := h
      obtain ⟨span, howned, hranges⟩ := validateStreams_owned hstreams
      exact ⟨span, by simpa using howned, howned.span_le, hranges⟩

/--
**Packed bytes have one owner each.** In a header that is accepted, every pack stream
lies between the two headers and inside the archive, no two of them share a byte, and
in each section the packed inputs of the folders and the pack streams correspond one to
one.
-/
theorem validatePlainHeader_packStreams {raw : RawHeader} {envelope : HeaderEnvelope}
    {archiveBytes : Bytes} {limits : Limits} {control control' : ParseControl}
    {header : ArchiveHeader}
    (h : (validatePlainHeader raw envelope archiveBytes limits).run control
      = (.ok header, control')) :
    (∀ stream ∈ header.packStreams, stream.Inside envelope archiveBytes) ∧
      header.packStreams.Pairwise (fun a b => Disjoint a.offsets b.offsets) ∧
      ∀ streams ∈ header.sections,
        Set.BijOn streams.packStreamOf Set.univ (Set.Iio streams.packStreams.length) := by
  have hresult := (Metered.result_of_run_ok h).1
  simp only [validatePlainHeader, Metered.bind_eq_ok, Prod.exists, Metered.result_pure,
    Except.ok.injEq] at hresult
  obtain ⟨additional, _, hadditional, main, _, hmain, _, hcheck, _, -, _, -, rfl⟩ := hresult
  obtain ⟨spanA, hownedA, hleA, rfl⟩ := validateStreamsSection_owned hadditional
  obtain ⟨spanM, hownedM, hleM, rfl⟩ := validateStreamsSection_owned hmain
  have hspans : Disjoint (points spanA) (points spanM) := by
    refine points_disjoint_of_sections ?_
    rw [List.nil_append] at hcheck
    refine checkNonOverlappingRanges_disjoint (fun r hr => ?_) hcheck
    rcases List.mem_append.mp hr with hr | hr
    · have heq : r = spanA := by simp_all [sectionRange]
      exact heq ▸ hleA
    · have heq : r = spanM := by simp_all [sectionRange]
      exact heq ▸ hleM
  refine ⟨?_, ?_, ?_⟩
  · intro stream hmem
    simp only [ArchiveHeader.packStreams, ArchiveHeader.sections, List.mem_flatMap,
      List.mem_append, Option.mem_toList] at hmem
    obtain ⟨s, hs | hs, hmem⟩ := hmem
    · exact (hownedA s hs).stream_inside hmem
    · exact (hownedM s hs).stream_inside hmem
  · simp only [ArchiveHeader.packStreams, ArchiveHeader.sections, List.flatMap_append]
    refine List.pairwise_append.mpr ⟨?_, ?_, ?_⟩
    · cases additional with
      | none => simp
      | some s => simpa using (hownedA s rfl).pairwise_disjoint
    · cases main with
      | none => simp
      | some s => simpa using (hownedM s rfl).pairwise_disjoint
    · intro a ha b hb
      simp only [List.mem_flatMap, Option.mem_toList] at ha hb
      obtain ⟨s, hs, ha⟩ := ha
      obtain ⟨t, ht, hb⟩ := hb
      exact hspans.mono ((hownedA s hs).offsets_subset ha) ((hownedM t ht).offsets_subset hb)
  · intro s hs
    simp only [ArchiveHeader.sections, List.mem_append, Option.mem_toList] at hs
    rcases hs with hs | hs
    · exact (hownedA s hs).owners
    · exact (hownedM s hs).owners

/-- One folder of one copying coder, fed by one packed stream of `size` bytes. -/
def copyStreams (position size : Nat) : RawStreamsInfo :=
  ⟨some ⟨position, 1, some [size], none⟩,
    some ⟨[⟨[⟨[0], 1, 1, []⟩], 1, 1, [], 1, none, [size]⟩], none⟩, none⟩

/-- A main stream of two bytes right after an additional stream of one. -/
theorem validatePlainHeader_packStreams_two :
    ∃ header control', (validatePlainHeader
          ⟨[], some (copyStreams 0 1), some (copyStreams 1 2), none⟩
          ⟨0, ⟨0, 4⟩, 35, 0, 0, .header⟩ (List.replicate 35 0) {}).run (.uncancelled .unlimited)
        = (.ok header, control') ∧
      (∀ stream ∈ header.packStreams,
        stream.Inside ⟨0, ⟨0, 4⟩, 35, 0, 0, .header⟩ (List.replicate 35 0)) ∧
      header.packStreams.Pairwise (fun a b => Disjoint a.offsets b.offsets) ∧
      ∀ streams ∈ header.sections,
        Set.BijOn streams.packStreamOf Set.univ (Set.Iio streams.packStreams.length) :=
  have hrun : (validatePlainHeader
        ⟨[], some (copyStreams 0 1), some (copyStreams 1 2), none⟩
        ⟨0, ⟨0, 4⟩, 35, 0, 0, .header⟩ (List.replicate 35 0) {}).run (.uncancelled .unlimited)
      = (.ok _, _) := rfl
  ⟨_, _, hrun, validatePlainHeader_packStreams hrun⟩

end Validate

end Un7z
