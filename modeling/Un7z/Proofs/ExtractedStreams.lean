/-
Opened streams of frames, from the bytes of the file to what they are decompressed to.

`StreamContents` says what a list of frames comes to.  Here the frames are those the parser has
recorded: an opened stream decompresses to the contents of its frames, one after another, and a
file behind another one decompresses to what the two do.
-/
import Un7z.Proofs.ConcatenatedStreams
import Un7z.Proofs.StreamDetection
import Un7z.Proofs.ExtractionRuns

namespace Un7z

open Lz4 (Lz4Frame Lz4StreamInfo sliceBetween)
open Zstandard (ZstandardFrame ZstandardStreamInfo)
open Extraction (FrameLayout Content Fits)

/-! ### Frames in a longer file -/

namespace Extraction

variable {limits : Limits} {ρ φ : Type} {layout : FrameLayout ρ φ} {a b : Bytes}

/-- The same frame, `k` bytes further on. -/
structure FrameLayout.Moved (layout : FrameLayout ρ φ) (k : Nat) (frame moved : φ) : Prop where
  start : layout.start moved = k + layout.start frame
  stop : layout.stop moved = k + layout.stop frame
  contentSize : layout.contentSize moved = layout.contentSize frame
  checksum : layout.checksum moved = layout.checksum frame
  dictionary : layout.dictionary moved = layout.dictionary frame
  memory : layout.memory moved = layout.memory frame
  verifies : layout.verifies moved = layout.verifies frame

theorem Content.append {frame : φ} {content : Bytes} (h : Content limits a layout frame content)
    (b : Bytes) : Content limits (a ++ b) layout frame content := by
  obtain ⟨bytes, reader, pieces, last, hslice, hrest⟩ := h.yields
  have hinside := @Lz4.sliceBetween_inside [] a b _ _ _ hslice
  rw [List.length_nil, Nat.zero_add, Nat.zero_add] at hinside
  exact ⟨h.memory_le, h.dictionary_eq, h.declared, bytes, reader, pieces, last, hinside, hrest⟩

theorem Content.behind {frame moved : φ} {content : Bytes} (h : Content limits b layout frame content)
    (a : Bytes) (hmoved : layout.Moved a.length frame moved) :
    Content limits (a ++ b) layout moved content := by
  obtain ⟨bytes, reader, pieces, last, hslice, hrest⟩ := h.yields
  have hinside := @Lz4.sliceBetween_inside a b [] _ _ _ hslice
  rw [List.append_nil] at hinside
  refine ⟨?_, ?_, ?_, bytes, reader, pieces, last, ?_, ?_⟩
  · rw [hmoved.memory]
    exact h.memory_le
  · rw [hmoved.dictionary]
    exact h.dictionary_eq
  · rw [hmoved.contentSize]
    exact h.declared
  · rw [hmoved.start, hmoved.stop]
    exact hinside
  · rw [hmoved.verifies]
    exact hrest

/-- What the frames of a file hold, and what those of a file behind it hold. -/
theorem contents_append {shift : φ → φ} {frames frames' : List φ} {contents contents' : List Bytes}
    (hshift : ∀ frame, layout.Moved a.length frame (shift frame))
    (h : List.Forall₂ (Content limits a layout) frames contents)
    (h' : List.Forall₂ (Content limits b layout) frames' contents') :
    List.Forall₂ (Content limits (a ++ b) layout) (frames ++ frames'.map shift) (contents ++ contents') := by
  refine List.rel_append (h.imp fun _ _ hcontent => hcontent.append b) ?_
  rw [List.forall₂_map_left_iff]
  exact h'.imp fun frame _ hcontent => hcontent.behind a (hshift frame)

/-- Frames declare no more than they hold. -/
theorem declared_le {input : Bytes} {frames : List φ} {contents : List Bytes}
    (h : List.Forall₂ (Content limits input layout) frames contents) :
    (frames.map fun frame => (layout.contentSize frame).getD 0).sum ≤ contents.flatten.length := by
  induction h with
  | nil => exact Nat.le_refl _
  | @cons frame content frames contents hcontent _ ih =>
      have hframe : (layout.contentSize frame).getD 0 ≤ content.length := by
        cases hsize : layout.contentSize frame with
        | none => exact Nat.zero_le _
        | some declared => exact Nat.le_of_eq (hcontent.declared declared hsize)
      rw [List.map_cons, List.sum_cons, List.flatten_cons, List.length_append]
      exact Nat.add_le_add hframe ih

end Extraction

/-- How many data frames are counted. -/
def StreamInfoKind.dataFrames : StreamInfoKind → Nat
  | .lz4 info => info.frameCount
  | .zstandard info => info.frameCount
  | .unixCompress _ => 1

/-- How many frames are counted. -/
def StreamInfoKind.allFrames : StreamInfoKind → Nat
  | .lz4 info => info.frameCount + info.skippableFrameCount
  | .zstandard info => info.frameCount + info.skippableFrameCount
  | .unixCompress _ => 1

/-- How many frames have a checksum that is verified. -/
def StreamLayout.checksums : StreamLayout → Nat
  | .lz4 frames => frames.countP Lz4Frame.checksum
  | .zstandard frames => frames.countP ZstandardFrame.checksum
  | .unixCompress _ => 0

/-- Every data frame takes the four bytes of its magic. -/
theorem Tiles.length_le {input : Bytes} {position : Nat} {ranges : List (Nat × Nat)}
    (h : Tiles input position ranges) : position + 4 * ranges.length ≤ input.length := by
  induction h with
  | done => exact Nat.le_refl _
  | skipped _ _ _ _ ih => omega
  | data _ _ hlength _ ih =>
      rw [List.length_cons]
      omega

namespace CompressedStream

variable {δ δ' ρ φ : Type} {decoders : StreamDecoders δ δ'} {xxHash32 : Bytes → Nat} {a b out : Bytes}
  {limits : Limits} {format : StreamFormat} {stream : CompressedStream}

/-! ### Opened streams -/

theorem checkSize_eq_ok {size : Option Nat} : (checkSize limits size).result = .ok () ↔
    ∀ declared ∈ size, declared ≤ limits.maxEntryOutputBytes ∧ declared ≤ limits.maxTotalOutputBytes := by
  cases size with
  | none => exact ⟨fun _ _ h => (by cases h), fun _ => rfl⟩
  | some size =>
      rw [checkSize, Metered.bind_eq_ok]
      constructor
      · rintro ⟨⟨⟩, hentry, htotal⟩ declared h
        obtain rfl := Option.some.inj h
        exact ⟨checkLimit_eq_ok.mp hentry, checkLimit_eq_ok.mp htotal⟩
      · intro h
        exact ⟨(), checkLimit_of_le (h size rfl).1 _, checkLimit_of_le (h size rfl).2 _⟩

theorem openBytesAs_eq_ok : (openBytesAs xxHash32 a format limits).result = .ok stream ↔
    a.length ≤ limits.maxTotalInputBytes ∧ ∃ kind size layout,
      (parseAs xxHash32 a limits format).result = .ok (kind, size, layout) ∧
      (checkSize limits size).result = .ok () ∧
      ⟨a, ⟨format, a.length, size, kind⟩, layout, limits⟩ = stream := by
  rw [openBytesAs, openBytesInner]
  constructor
  · intro h
    obtain ⟨⟨⟩, hinput, h⟩ := Metered.bind_eq_ok.mp h
    rw [Metered.result_bind_ok (result_consumeBytes _)] at h
    obtain ⟨format', hformat, h⟩ := Metered.bind_eq_ok.mp h
    obtain rfl := Except.ok.inj hformat
    obtain ⟨⟨kind, size, layout⟩, hparse, h⟩ := Metered.bind_eq_ok.mp h
    obtain ⟨⟨⟩, hsize, h⟩ := Metered.bind_eq_ok.mp h
    exact ⟨checkLimit_eq_ok.mp hinput, kind, size, layout, hparse, hsize, Except.ok.inj h⟩
  · rintro ⟨hinput, kind, size, layout, hparse, hsize, rfl⟩
    rw [Metered.result_bind_ok (checkLimit_of_le hinput _), Metered.result_bind_ok (result_consumeBytes _)]
    exact Metered.bind_eq_ok.mpr ⟨format, rfl, Metered.bind_eq_ok.mpr
      ⟨(kind, size, layout), hparse, Metered.bind_eq_ok.mpr ⟨(), hsize, rfl⟩⟩⟩

/-- Detection opens what a format opens. -/
theorem openBytes_of_openBytesAs (h : (openBytesAs xxHash32 a format limits).result = .ok stream) :
    (openBytes xxHash32 a limits).result = .ok stream := by
  have hdetects : detectFormat a = pure format :=
    Metered.eq_pure_of_free trace_detectFormat (detectFormat_result (openBytesAs_starts h).1)
  rw [← h, openBytes, openBytesAs, openBytesInner, openBytesInner, hdetects]

theorem openBytesAs_lz4 : (openBytesAs xxHash32 a .lz4 limits).result = .ok stream ↔
    a.length ≤ limits.maxTotalInputBytes ∧ ∃ info size frames,
      (Lz4.parse xxHash32 a limits).result = .ok (info, size, frames) ∧
      (checkSize limits size).result = .ok () ∧
      ⟨a, ⟨.lz4, a.length, size, .lz4 info⟩, .lz4 frames, limits⟩ = stream := by
  rw [openBytesAs_eq_ok]
  refine and_congr_right fun _ => ⟨?_, ?_⟩
  · rintro ⟨kind, size, layout, hparse, hsize, rfl⟩
    obtain ⟨⟨info, size', frames⟩, hframes, h⟩ := Metered.bind_eq_ok.mp hparse
    cases h
    exact ⟨info, size, frames, hframes, hsize, rfl⟩
  · rintro ⟨info, size, frames, hframes, hsize, rfl⟩
    exact ⟨_, size, _, Metered.bind_eq_ok.mpr ⟨(info, size, frames), hframes, rfl⟩, hsize, rfl⟩

theorem openBytesAs_zstandard : (openBytesAs xxHash32 a .zstandard limits).result = .ok stream ↔
    a.length ≤ limits.maxTotalInputBytes ∧ ∃ info size frames,
      (Zstandard.parse a limits).result = .ok (info, size, frames) ∧
      (checkSize limits size).result = .ok () ∧
      ⟨a, ⟨.zstandard, a.length, size, .zstandard info⟩, .zstandard frames, limits⟩ = stream := by
  rw [openBytesAs_eq_ok]
  refine and_congr_right fun _ => ⟨?_, ?_⟩
  · rintro ⟨kind, size, layout, hparse, hsize, rfl⟩
    obtain ⟨⟨info, size', frames⟩, hframes, h⟩ := Metered.bind_eq_ok.mp hparse
    cases h
    exact ⟨info, size, frames, hframes, hsize, rfl⟩
  · rintro ⟨info, size, frames, hframes, hsize, rfl⟩
    exact ⟨_, size, _, Metered.bind_eq_ok.mpr ⟨(info, size, frames), hframes, rfl⟩, hsize, rfl⟩

/-! ### Contents -/

/-- The contents of the frames of a stream, which Unix `compress` does not have. -/
def Decodes (decoders : StreamDecoders δ δ') (stream : CompressedStream) (contents : List Bytes) : Prop :=
  match stream.layout with
  | .lz4 frames => stream.Holds (Lz4.layout decoders.lz4) frames contents
  | .zstandard frames => stream.Holds (Zstandard.layout decoders.zstandard) frames contents
  | .unixCompress _ => False

/-- An opened stream of frames is decompressed to the contents of its frames, which are counted. -/
theorem extractTo_decodes {summary : StreamExtraction} {extraction : Extraction Bytes}
    (hformat : format ≠ .unixCompress) (hsmall : a.length < 2 ^ 64)
    (hopen : (openBytesAs xxHash32 a format limits).result = .ok stream) :
    (stream.extractTo decoders fallibleVec).result ⟨[], 0, 0, 0⟩ = (.ok summary, extraction) ↔
      ∃ contents, stream.Decodes decoders contents ∧
        extraction = ⟨contents.flatten, contents.flatten.length, stream.info.kind.dataFrames,
          stream.layout.checksums⟩ ∧ extraction.finish = summary := by
  have htile := @frames_tile a limits hsmall
  have hlt : ∀ ranges, Tiles a 0 ranges → ranges.length < 2 ^ 64 := by
    intro ranges h
    have hle := h.length_le
    omega
  cases format with
  | lz4 =>
      obtain ⟨-, info, size, frames, hparse, -, rfl⟩ := openBytesAs_lz4.mp hopen
      obtain ⟨hcount, htiles⟩ := htile.1 xxHash32 info size frames hparse
      have hframes := hlt _ htiles
      rw [List.length_map] at hframes
      have h := @extractTo_eq_ok δ δ' _ _ decoders ⟨a, ⟨.lz4, a.length, size, .lz4 info⟩, .lz4 frames, limits⟩
        (Lz4.layout decoders.lz4) frames summary extraction rfl (Lz4.indexFree _) hframes
      rw [h, hcount]
      rfl
  | zstandard =>
      obtain ⟨-, info, size, frames, hparse, -, rfl⟩ := openBytesAs_zstandard.mp hopen
      obtain ⟨hcount, htiles⟩ := htile.2 info size frames hparse
      have hframes := hlt _ htiles
      rw [List.length_map] at hframes
      have h := @extractTo_eq_ok δ δ' _ _ decoders
        ⟨a, ⟨.zstandard, a.length, size, .zstandard info⟩, .zstandard frames, limits⟩
        (Zstandard.layout decoders.zstandard) frames summary extraction rfl (Zstandard.indexFree _) hframes
      rw [h, hcount]
      rfl
  | unixCompress => exact absurd rfl hformat

/--
**A stream of frames holds what its frames hold.**

It decompresses to the contents of its frames, one after another, and it is verified when there
are such contents; then its bytes, its data frames and the checksums of its frames are counted.
-/
theorem decompress_contents (decoders : StreamDecoders δ δ') (hformat : format ≠ .unixCompress)
    (hsmall : a.length < 2 ^ 64) (hopen : (openBytesAs xxHash32 a format limits).result = .ok stream) :
    (∀ out, (stream.decompress decoders).result = .ok out ↔
      ∃ contents, stream.Decodes decoders contents ∧ contents.flatten = out) ∧
    ∀ summary, (stream.verify decoders).result = .ok summary ↔
      ∃ contents, stream.Decodes decoders contents ∧
        ⟨contents.flatten.length, stream.info.kind.dataFrames, stream.layout.checksums⟩ = summary := by
  refine ⟨fun out => ?_, fun summary => ?_⟩
  · rw [decompress_eq_ok_iff]
    constructor
    · rintro ⟨summary, extraction, hrun, rfl⟩
      obtain ⟨contents, hdecodes, rfl, -⟩ := (extractTo_decodes hformat hsmall hopen).mp hrun
      exact ⟨contents, hdecodes, rfl⟩
    · rintro ⟨contents, hdecodes, rfl⟩
      exact ⟨_, _, (extractTo_decodes hformat hsmall hopen).mpr ⟨contents, hdecodes, rfl, rfl⟩, rfl⟩
  · rw [verify_agrees]
    constructor
    · rintro ⟨extraction, hrun, -⟩
      obtain ⟨contents, hdecodes, rfl, rfl⟩ := (extractTo_decodes hformat hsmall hopen).mp hrun
      exact ⟨contents, hdecodes, rfl⟩
    · rintro ⟨contents, hdecodes, rfl⟩
      exact ⟨_, (extractTo_decodes hformat hsmall hopen).mpr ⟨contents, hdecodes, rfl, rfl⟩, rfl⟩

/-- A frame of one segment that holds a byte, in a block that stores it. -/
def storedFrame (byte : UInt8) : Bytes := [0x28, 0xb5, 0x2f, 0xfd, 0x20, 1, 9, 0, 0, byte]

/-- Decoders for such frames: what is left to read, and the length of the frame. -/
def storedDecoders : StreamDecoders Unit (Bytes × Nat) :=
  ⟨⟨⟨fun _ _ => (.panicked, ()), fun _ => 0⟩, fun _ => ()⟩,
    ⟨⟨fun capacity reader => (.bytes (reader.1.take capacity), reader.1.drop capacity, reader.2), Prod.snd⟩,
      fun frame => .ok (frame.drop 9, frame.length), fun _ => none, fun _ => none⟩⟩

def storedStream (byte : UInt8) : CompressedStream :=
  ⟨storedFrame byte, ⟨.zstandard, 10, some 1, .zstandard ⟨1, 0, 0, 0, 1⟩⟩,
    .zstandard [⟨0, 10, some 1, 1, false, false⟩], {}⟩

theorem decompress_contents_stored : ∃ contents, (storedStream 7).Decodes storedDecoders contents ∧
    contents.flatten = [7] := by
  have hopen : (openBytesAs (fun _ => 0) (storedFrame 7) .zstandard {}).result = .ok (storedStream 7) := by
    decide +kernel
  exact ((decompress_contents storedDecoders (by decide) (by decide) hopen).1 [7]).mp (by decide +kernel)

/-! ### A file behind another one -/

theorem mem_joinSizes {size size' : Option Nat} {declared : Nat} (h : declared ∈ joinSizes size size') :
    ∃ n n', size = some n ∧ size' = some n' ∧ declared = n + n' := by
  cases size with
  | none => cases h
  | some n =>
      cases size' with
      | none => cases h
      | some n' => exact ⟨n, n', rfl, rfl, (Option.some.inj h).symm⟩

variable {first second joined : CompressedStream} {ρ φ : Type} {layout : FrameLayout ρ φ}

theorem Holds.append {shift : φ → φ} {frames frames' : List φ} {contents contents' : List Bytes}
    (h : first.Holds layout frames contents) (h' : second.Holds layout frames' contents')
    (hshift : ∀ frame, layout.Moved first.bytes.length frame (shift frame))
    (hlimits : second.limits = first.limits) (hlimits' : joined.limits = first.limits)
    (hbytes : joined.bytes = first.bytes ++ second.bytes)
    (hsize : joined.info.uncompressedSize
      = joinSizes first.info.uncompressedSize second.info.uncompressedSize)
    (hfits : Fits first.limits (contents.flatten.length + contents'.flatten.length)) :
    joined.Holds layout (frames ++ frames'.map shift) (contents ++ contents') := by
  have heach' := h'.each
  rw [hlimits] at heach'
  have hlength : (contents ++ contents').flatten.length
      = contents.flatten.length + contents'.flatten.length := by
    rw [List.flatten_append, List.length_append]
  refine ⟨?_, ?_, ?_⟩
  · rw [hlimits', hbytes]
    exact Extraction.contents_append hshift h.each heach'
  · rw [hlimits', hlength]
    exact hfits
  · rw [hsize, hlength]
    intro declared hmem
    obtain ⟨n, n', hn, hn', rfl⟩ := mem_joinSizes hmem
    rw [h.declared n hn, h'.declared n' hn']

theorem checkSize_joinSizes {size size' : Option Nat} {n n' : Nat} (hfits : Fits limits (n + n'))
    (h : ∀ declared ∈ size, declared = n) (h' : ∀ declared ∈ size', declared = n') :
    (checkSize limits (joinSizes size size')).result = .ok () := by
  refine checkSize_eq_ok.mpr fun declared hmem => ?_
  obtain ⟨m, m', hm, hm', rfl⟩ := mem_joinSizes hmem
  rw [h m hm, h' m' hm']
  exact ⟨hfits.entry_le, hfits.total_le⟩

/-- What two streams hold, the file of both holds. -/
theorem decodes_append {contents contents' : List Bytes} (hsmall : (a ++ b).length < 2 ^ 64)
    (hinput : (a ++ b).length ≤ limits.maxTotalInputBytes)
    (ha : (openBytesAs xxHash32 a format limits).result = .ok first)
    (hb : (openBytesAs xxHash32 b format limits).result = .ok second)
    (hframes : first.info.kind.allFrames + second.info.kind.allFrames ≤ limits.maxStreamFrames)
    (hx : first.Decodes decoders contents) (hy : second.Decodes decoders contents')
    (hfits : Fits limits (contents.flatten.length + contents'.flatten.length)) :
    ∃ joined, (openBytesAs xxHash32 (a ++ b) format limits).result = .ok joined ∧
      joined.Decodes decoders (contents ++ contents') := by
  have hsize := hfits.size_lt
  cases format with
  | lz4 =>
      obtain ⟨-, info, size, frames, hparse, -, rfl⟩ := openBytesAs_lz4.mp ha
      obtain ⟨-, info', size', frames', hparse', -, rfl⟩ := openBytesAs_lz4.mp hb
      have hdeclared : Lz4.declaredBytes frames ≤ contents.flatten.length := Extraction.declared_le hx.each
      have hdeclared' : Lz4.declaredBytes frames' ≤ contents'.flatten.length :=
        Extraction.declared_le hy.each
      have hboth := Lz4.lz4_append hsmall hparse hparse' hframes (by omega)
      refine ⟨_, openBytesAs_lz4.mpr ⟨hinput, _, _, _, hboth,
        checkSize_joinSizes hfits hx.declared hy.declared, rfl⟩, ?_⟩
      exact hx.append hy (fun frame => ⟨rfl, rfl, rfl, rfl, rfl, rfl, rfl⟩) rfl rfl rfl rfl hfits
  | zstandard =>
      obtain ⟨-, info, size, frames, hparse, -, rfl⟩ := openBytesAs_zstandard.mp ha
      obtain ⟨-, info', size', frames', hparse', -, rfl⟩ := openBytesAs_zstandard.mp hb
      have hdeclared : Zstandard.declaredBytes frames ≤ contents.flatten.length :=
        Extraction.declared_le hx.each
      have hdeclared' : Zstandard.declaredBytes frames' ≤ contents'.flatten.length :=
        Extraction.declared_le hy.each
      have hboth := Zstandard.zstandard_append hsmall hparse hparse' hframes (by omega)
      refine ⟨_, openBytesAs_zstandard.mpr ⟨hinput, _, _, _, hboth,
        checkSize_joinSizes hfits hx.declared hy.declared, rfl⟩, ?_⟩
      exact hx.append hy (fun frame => ⟨rfl, rfl, rfl, rfl, rfl, rfl, rfl⟩) rfl rfl rfl rfl hfits
  | unixCompress =>
      obtain ⟨-, kind, size, layout, hparse, -, rfl⟩ := openBytesAs_eq_ok.mp ha
      obtain ⟨⟨info, codes⟩, -, h⟩ := Metered.bind_eq_ok.mp hparse
      cases h
      exact hx.elim

end CompressedStream

end Un7z
