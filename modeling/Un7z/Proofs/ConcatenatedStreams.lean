/-
Files of frames, one behind the other.

An LZ4 file and a Zstandard file are lists of frames, and a file behind another one is a
file again: what is parsed of it is what is parsed of each, with the frames of the second
moved behind the first.  Here the two formats are shown to be `Uniform`, frame by frame,
header by header and block by block; a legacy frame of LZ4 is the only one that has no end
of its own, and it ends where the second file begins.
-/
import Un7z.Lz4
import Un7z.Zstandard
import Un7z.Proofs.FrameRuns

namespace Un7z

open StreamCursor

variable {before input behind : Bytes} {floor : Nat}

/-- A counter behind other frames. -/
theorem countIf_add {counted : Bool} {format detail : String} {base count count' n : Nat}
    (h : (countIf counted format detail count).result = .ok count') (hle : base + count ≤ n)
    (hn : n + 1 < 2 ^ 64) :
    (countIf counted format detail (base + count)).result = .ok (base + count') ∧
      base + count' ≤ n + 1 := by
  cases counted with
  | false =>
      obtain rfl := Except.ok.inj h
      exact ⟨rfl, by omega⟩
  | true =>
      obtain ⟨-, rfl⟩ := countOne_eq_ok.mp h
      exact ⟨countOne_eq_ok.mpr ⟨by omega, rfl⟩, by omega⟩

namespace Zstandard

theorem mirrored_readWindowDescriptor (singleSegment : Bool) :
    Mirrored (Inside before input behind floor) Eq (readWindowDescriptor singleSegment)
      (readWindowDescriptor singleSegment) :=
  Mirrored.ite (fun _ => Mirrored.pure rfl)
    fun _ => (mirrored_readU8 _).bind_eq fun _ => Mirrored.pure rfl

theorem mirrored_readContentSize (contentLength : Nat) :
    Mirrored (Inside before input behind floor) Eq (readContentSize contentLength)
      (readContentSize contentLength) :=
  Mirrored.ite (fun _ => Mirrored.pure rfl) fun _ => (mirrored_readLe _ _).bind_eq fun _ =>
    Mirrored.ite (fun _ => Mirrored.lift_next fun _ _ => Mirrored.pure rfl) fun _ => Mirrored.pure rfl

/-- The header of a frame is read alike wherever it lies. -/
theorem mirrored_parseFrameHeader :
    Mirrored (Inside before input behind floor) Eq parseFrameHeader parseFrameHeader := by
  refine (mirrored_readU8 _).bind_eq fun descriptor => Mirrored.ite (fun _ => ?_) fun _ => ?_
  · exact Mirrored.lift (Metered.Mirrors.refl _)
  · refine (mirrored_readWindowDescriptor _).bind_eq fun window => Mirrored.lift_next fun _ _ => ?_
    refine (mirrored_readLe _ _).bind_eq fun _ => Mirrored.lift_next fun _ _ => ?_
    refine (mirrored_readContentSize _).bind_eq fun _ => Mirrored.lift_next fun _ _ => ?_
    exact Mirrored.pure rfl

theorem mirrored_parseBlock (maximumBlockBytes : Nat) :
    Mirrored (Inside before input behind floor) Eq (parseBlock maximumBlockBytes)
      (parseBlock maximumBlockBytes) := by
  refine (mirrored_readU24Le _).bind_eq fun header => Mirrored.ite (fun _ => ?_) fun _ => ?_
  · exact Mirrored.lift (Metered.Mirrors.refl _)
  · exact Mirrored.lift_next fun _ _ => (mirrored_skipU64 _ _).bind_eq fun _ => Mirrored.pure rfl

/-- More fuel does not change what is read. -/
theorem mirrored_parseBlocks (maximumBlockBytes : Nat) (fuel : Nat) : ∀ fuel', fuel ≤ fuel' →
    Mirrored (Inside before input behind floor) Eq (parseBlocks maximumBlockBytes fuel)
      (parseBlocks maximumBlockBytes fuel') := by
  induction fuel with
  | zero =>
      intro fuel' _
      exact Mirrored.of_error fun cursor => ⟨_, result_streamFormatErr cursor.format _⟩
  | succ fuel ih =>
      intro fuel' hle
      obtain ⟨fuel', rfl⟩ : ∃ less, fuel' = less + 1 := ⟨fuel' - 1, by omega⟩
      exact (mirrored_parseBlock maximumBlockBytes).bind_eq fun _ =>
        Mirrored.ite (fun _ => Mirrored.pure rfl) fun _ => ih fuel' (by omega)

theorem mirrored_parseFrame :
    Mirrored (Inside before input behind floor) Eq parseFrame parseFrame := by
  refine mirrored_parseFrameHeader.bind_eq fun header => mirrored_remaining.bind fun ahead ahead' h => ?_
  subst h
  refine (mirrored_parseBlocks _ _ _ (by rw [List.length_append]; omega)).bind_eq fun _ => ?_
  exact (mirrored_passU32If _ _).bind_eq fun _ => Mirrored.pure rfl

def Counters.add (a b : Counters) : Counters :=
  ⟨a.checksumFrames + b.checksumFrames, a.dictionaryFrames + b.dictionaryFrames⟩

/-- The frame `k` bytes further on. -/
def ZstandardFrame.shift (k : Nat) (frame : ZstandardFrame) : ZstandardFrame :=
  { frame with
    start := k + frame.start
    stop := k + frame.stop }

theorem countFrame_add {parsed : ParsedFrame} {base counters counted : Counters} {n : Nat}
    (h : (countFrame parsed counters).result = .ok counted)
    (hchecksum : base.checksumFrames + counters.checksumFrames ≤ n)
    (hdictionary : base.dictionaryFrames + counters.dictionaryFrames ≤ n) (hn : n + 1 < 2 ^ 64) :
    (countFrame parsed (base.add counters)).result = .ok (base.add counted) ∧
      base.checksumFrames + counted.checksumFrames ≤ n + 1 ∧
      base.dictionaryFrames + counted.dictionaryFrames ≤ n + 1 := by
  obtain ⟨checksumFrames, hcounted, h⟩ := Metered.bind_eq_ok.mp h
  obtain ⟨dictionaryFrames, hcounted', hpure⟩ := Metered.bind_eq_ok.mp h
  obtain rfl := Except.ok.inj hpure
  obtain ⟨hrun, hle⟩ := countIf_add hcounted hchecksum hn
  obtain ⟨hrun', hle'⟩ := countIf_add hcounted' hdictionary hn
  exact ⟨Metered.bind_eq_ok.mpr ⟨_, hrun, Metered.bind_eq_ok.mpr ⟨_, hrun', rfl⟩⟩, hle, hle'⟩

/-- Zstandard frames are read and counted alike wherever they lie. -/
def uniform (limits : Limits) : Uniform (frameFormat limits) where
  none := ⟨0, 0⟩
  add := Counters.add
  fits n counters := counters.checksumFrames ≤ n ∧ counters.dictionaryFrames ≤ n
  starts _ := True
  span frame := (frame.start, frame.stop)
  size := ZstandardFrame.contentSize
  shift := ZstandardFrame.shift
  none_add counters := by rw [Counters.add, Nat.zero_add, Nat.zero_add]
  add_none _ := rfl
  fits_none := ⟨Nat.le_refl _, Nat.le_refl _⟩
  fits_mono hle h := ⟨h.1.trans hle, h.2.trans hle⟩
  shift_zero frame := by rw [ZstandardFrame.shift, Nat.zero_add, Nat.zero_add]
  shift_record _ _ _ _ := rfl
  span_record _ _ _ := rfl
  size_record _ _ _ := rfl
  starts_skippable _ := trivial
  starts_frame _ := trivial
  mirrored {before input behind floor start index index' magic n base counters} _ _ _ hn hfits := by
    refine Mirrored.ite (fun _ => ?_) fun _ => ?_
    · exact Mirrored.of_error fun _ => ⟨_, rfl⟩
    · exact mirrored_parseFrame.bind_eq fun parsed => Mirrored.lift_next fun _ _ =>
        Mirrored.pure ⟨rfl, fun counted hcount => countFrame_add hcount hfits.1 hfits.2 hn⟩

theorem parse_eq_ok {bytes : Bytes} {limits : Limits}
    {out : ZstandardStreamInfo × Option Nat × List ZstandardFrame} :
    (parse bytes limits).result = .ok out ↔ ∃ totals,
      ((frameFormat limits).parseTotals ⟨0, 0⟩ limits bytes).result = .ok totals ∧
        (streamInfo totals, totals.aggregateSize, totals.frames) = out := by
  rw [parse, Metered.bind_eq_ok]
  exact exists_congr fun totals => and_congr_right fun _ =>
    ⟨fun h => Except.ok.inj h, fun h => congrArg Except.ok h⟩

/-- What is counted in both of two files. -/
def ZstandardStreamInfo.join (a b : ZstandardStreamInfo) : ZstandardStreamInfo where
  frameCount := a.frameCount + b.frameCount
  skippableFrameCount := a.skippableFrameCount + b.skippableFrameCount
  contentChecksumFrameCount := a.contentChecksumFrameCount + b.contentChecksumFrameCount
  dictionaryFrameCount := a.dictionaryFrameCount + b.dictionaryFrameCount
  maximumWindowBytes := max a.maximumWindowBytes b.maximumWindowBytes

/-- The sum of the content sizes that are declared. -/
def declaredBytes (frames : List ZstandardFrame) : Nat :=
  (frames.map fun frame => frame.contentSize.getD 0).sum

/-- A Zstandard file behind another one is a Zstandard file, with the frames of both. -/
theorem zstandard_append {limits : Limits} {a b : Bytes} {info info' : ZstandardStreamInfo}
    {size size' : Option Nat} {frames frames' : List ZstandardFrame}
    (hsmall : (a ++ b).length < 2 ^ 64) (ha : (parse a limits).result = .ok (info, size, frames))
    (hb : (parse b limits).result = .ok (info', size', frames'))
    (hcount : info.frameCount + info.skippableFrameCount
      + (info'.frameCount + info'.skippableFrameCount) ≤ limits.maxStreamFrames)
    (hdeclared : declaredBytes frames + declaredBytes frames' < 2 ^ 64) :
    (parse (a ++ b) limits).result = .ok (info.join info', joinSizes size size',
      frames ++ frames'.map (ZstandardFrame.shift a.length)) := by
  obtain ⟨totals, hrun, hout⟩ := parse_eq_ok.mp ha
  obtain ⟨totals', hrun', hout'⟩ := parse_eq_ok.mp hb
  cases hout
  cases hout'
  exact parse_eq_ok.mpr ⟨_, (uniform limits).parseTotals_append hsmall hrun hrun' hcount hdeclared, rfl⟩

/-- An empty frame of a single segment. -/
def emptyFile : Bytes := [0x28, 0xb5, 0x2f, 0xfd, 0x20, 0, 1, 0, 0]

/-- A skippable frame of one byte. -/
def skippableFrame : Bytes := [0x50, 0x2a, 0x4d, 0x18, 1, 0, 0, 0, 7]

theorem zstandard_append_skippable :
    (parse (emptyFile ++ (skippableFrame ++ emptyFile)) {}).result
      = .ok (⟨2, 1, 0, 0, 0⟩, some 0, [⟨0, 9, some 0, 0, false, false⟩, ⟨18, 27, some 0, 0, false, false⟩]) :=
  @zstandard_append {} emptyFile (skippableFrame ++ emptyFile) ⟨1, 0, 0, 0, 0⟩ ⟨1, 1, 0, 0, 0⟩ (some 0)
    (some 0) [⟨0, 9, some 0, 0, false, false⟩] [⟨9, 18, some 0, 0, false, false⟩] (by decide)
    (by decide +kernel) (by decide +kernel) (by decide) (by decide)

end Zstandard

namespace Lz4

theorem mirrored_readContentSize (present : Bool) :
    Mirrored (Inside before input behind floor) Eq (readContentSize present) (readContentSize present) :=
  Mirrored.ite (fun _ => (mirrored_readLe _ _).bind_eq fun _ => Mirrored.pure rfl)
    fun _ => Mirrored.pure rfl

theorem mirrored_parseDescriptor :
    Mirrored (Inside before input behind floor) Eq parseDescriptor parseDescriptor := by
  refine (mirrored_readU8 _).bind_eq fun flags => (mirrored_readU8 _).bind_eq fun blockDescriptor => ?_
  refine Mirrored.ite (fun _ => ?_) fun _ => Mirrored.ite (fun _ => ?_) fun _ => ?_
  · exact Mirrored.lift (Metered.Mirrors.refl _)
  · exact Mirrored.lift (Metered.Mirrors.refl _)
  · refine Mirrored.lift_next fun _ _ => (mirrored_readContentSize _).bind_eq fun _ => ?_
    exact (mirrored_passU32If _ _).bind_eq fun _ => Mirrored.pure rfl

theorem mirrored_parseBlock (maximumBlockBytes : Nat) (blockChecksums : Bool) :
    Mirrored (Inside before input behind floor) Eq (parseBlock maximumBlockBytes blockChecksums)
      (parseBlock maximumBlockBytes blockChecksums) := by
  refine (mirrored_readU32Le _).bind_eq fun header => Mirrored.ite (fun _ => Mirrored.pure rfl) fun _ => ?_
  refine Mirrored.ite (fun _ => ?_) fun _ => Mirrored.ite (fun _ => ?_) fun _ => ?_
  · exact Mirrored.lift (Metered.Mirrors.refl _)
  · exact Mirrored.lift (Metered.Mirrors.refl _)
  · refine (mirrored_skipU64 _ _).bind_eq fun _ => ?_
    exact (mirrored_passU32If _ _).bind_eq fun _ => Mirrored.pure rfl

theorem mirrored_parseBlocks (maximumBlockBytes : Nat) (blockChecksums : Bool) (fuel : Nat) :
    ∀ fuel', fuel ≤ fuel' → Mirrored (Inside before input behind floor) Eq
      (parseBlocks maximumBlockBytes blockChecksums fuel)
      (parseBlocks maximumBlockBytes blockChecksums fuel') := by
  induction fuel with
  | zero =>
      intro fuel' _
      exact Mirrored.of_error fun cursor => ⟨_, result_streamFormatErr cursor.format _⟩
  | succ fuel ih =>
      intro fuel' hle
      obtain ⟨fuel', rfl⟩ : ∃ less, fuel' = less + 1 := ⟨fuel' - 1, by omega⟩
      exact (mirrored_parseBlock maximumBlockBytes blockChecksums).bind_eq fun _ =>
        Mirrored.ite (fun _ => Mirrored.pure rfl) fun _ => ih fuel' (by omega)

theorem mirrored_parseFrameBody (descriptor : Descriptor) :
    Mirrored (Inside before input behind floor) Eq (parseFrameBody descriptor)
      (parseFrameBody descriptor) := by
  refine mirrored_remaining.bind fun ahead ahead' h => ?_
  subst h
  refine (mirrored_parseBlocks _ _ _ _ (by rw [List.length_append]; omega)).bind_eq fun _ => ?_
  refine (mirrored_passU32If _ _).bind_eq fun _ => Mirrored.lift_next fun _ _ => ?_
  exact Mirrored.pure rfl

/-- A stretch of an input is one of a longer input. -/
theorem sliceBetween_inside {start stop : Nat} {bytes : Bytes}
    (h : sliceBetween input start stop = some bytes) :
    sliceBetween (before ++ (input ++ behind)) (before.length + start) (before.length + stop)
      = some bytes := by
  unfold sliceBetween at h ⊢
  by_cases hrange : start ≤ stop ∧ stop ≤ input.length
  · rw [if_pos hrange] at h
    have hbytes : ((before ++ (input ++ behind)).drop (before.length + start)).take
        (before.length + stop - (before.length + start)) = (input.drop start).take (stop - start) := by
      rw [List.drop_append, List.drop_eq_nil_of_le (Nat.le_add_right _ _), List.nil_append,
        Nat.add_sub_cancel_left, List.drop_append_of_le_length (hrange.1.trans hrange.2),
        Nat.add_sub_add_left, List.take_append_of_le_length]
      rw [List.length_drop]
      omega
    rw [if_pos, hbytes]
    · exact h
    · rw [List.length_append, List.length_append]
      omega
  · rw [if_neg hrange] at h
    cases h

/-- A standard frame is read alike wherever it lies. -/
theorem mirrored_parseStandardFrame (xxHash32 : Bytes → Nat) {start index index' : Nat}
    (hsmall : before.length + start + 4 < 2 ^ 64) :
    Mirrored (Inside before input behind floor) Eq (parseStandardFrame xxHash32 input start index)
      (parseStandardFrame xxHash32 (before ++ (input ++ behind)) (before.length + start) index') := by
  have hstart : (orStreamFormat (checkedAdd 64 start 4) "lz4" "descriptor offset overflows" :
      Work Nat).Mirrors (fun a b => b = before.length + a)
      (orStreamFormat (checkedAdd 64 (before.length + start) 4) "lz4" "descriptor offset overflows") := by
    rw [checkedAdd_of_lt hsmall, checkedAdd_of_lt (show start + 4 < 2 ^ 64 by omega)]
    exact Metered.Mirrors.pure (Nat.add_assoc _ _ _)
  refine (Mirrored.lift hstart).bind fun from' _ hfrom => ?_
  subst hfrom
  refine mirrored_parseDescriptor.bind_eq fun descriptor => ?_
  refine mirrored_currentPosition.bind fun position _ hposition => ?_
  subst hposition
  refine (mirrored_readU8 _).bind_eq fun expected => ?_
  have hslice : (orStreamFormat (sliceBetween input from' position) "lz4" "descriptor range is invalid" :
      Work Bytes).Mirrors Eq (orStreamFormat (sliceBetween (before ++ (input ++ behind))
        (before.length + from') (before.length + position)) "lz4" "descriptor range is invalid") :=
    fun bytes h => ⟨bytes, orStreamFormat_eq_ok.mpr (sliceBetween_inside (orStreamFormat_eq_ok.mp h)), rfl⟩
  refine (Mirrored.lift hslice).bind_eq fun bytes => Mirrored.ite (fun _ => ?_) fun _ => ?_
  · exact Mirrored.of_error fun _ => ⟨_, rfl⟩
  · exact mirrored_parseFrameBody descriptor

/-- A legacy frame ends at the end of its file, wherever that lies. -/
theorem mirrored_parseLegacyBlocks {start : Nat}
    (hbegins : Begins (fun magic => endsLegacyFrame magic = true) behind) (hstart : start < floor)
    (fuel : Nat) : ∀ fuel', fuel ≤ fuel' → Mirrored (Inside before input behind floor) Eq
      (parseLegacyBlocks start fuel) (parseLegacyBlocks (before.length + start) fuel') := by
  induction fuel with
  | zero =>
      intro fuel' _
      exact Mirrored.of_error fun cursor => ⟨_, result_streamFormatErr cursor.format _⟩
  | succ fuel ih =>
      intro fuel' hle
      obtain ⟨fuel', rfl⟩ : ∃ less, fuel' = less + 1 := ⟨fuel' - 1, by omega⟩
      intro cursor outer h out hrun
      have hremaining (c : StreamCursor) : (remaining c).result = .ok (c.ahead, c) := rfl
      have hposition (c : StreamCursor) : (currentPosition c).result = .ok (c.position, c) := rfl
      have hbehind : cursor.position ≠ start := by
        have hfloor := h.floor
        omega
      have hbehind' : outer.position ≠ before.length + start := by
        rw [h.position]
        omega
      rw [parseLegacyBlocks, Cursor.result_bind_ok (hremaining cursor)] at hrun
      rw [parseLegacyBlocks, Cursor.result_bind_ok (hremaining outer)]
      by_cases hend : cursor.ahead.isEmpty = true
      · -- The frame ends with its file, and what follows ends it in the longer one.
        rw [if_pos hend] at hrun
        obtain rfl := Except.ok.inj hrun
        refine ⟨((), outer), ?_, rfl, h⟩
        rw [h.ahead, List.isEmpty_iff.mp hend, List.nil_append]
        rcases hbegins with rfl | ⟨hlength, hmagic⟩
        · rfl
        · have hnot : ¬ behind.isEmpty = true := by
            rw [List.isEmpty_iff]
            rintro rfl
            exact absurd hlength (by decide)
          rw [if_neg hnot, if_neg (by omega), Cursor.result_bind_ok (hposition outer),
            if_pos ⟨hbehind', hmagic⟩]
          rfl
      · rw [if_neg hend] at hrun
        rw [if_neg (h.goes_on hend), h.ahead]
        by_cases hshort : cursor.ahead.length < 4
        · rw [if_pos hshort] at hrun
          cases hrun
        · rw [if_neg hshort, Cursor.result_bind_ok (hposition cursor)] at hrun
          rw [if_neg (by rw [List.length_append]; omega), Cursor.result_bind_ok (hposition outer),
            List.take_append_of_le_length (by omega)]
          by_cases hmagic : endsLegacyFrame (leValue (cursor.ahead.take 4)) = true
          · rw [if_pos ⟨hbehind, hmagic⟩] at hrun
            rw [if_pos ⟨hbehind', hmagic⟩]
            obtain rfl := Except.ok.inj hrun
            exact ⟨((), outer), rfl, rfl, h⟩
          · rw [if_neg fun hboth => hmagic hboth.2] at hrun
            rw [if_neg fun hboth => hmagic hboth.2]
            refine ((mirrored_readU32Le _).bind_eq fun size => Mirrored.ite (fun _ => ?_) fun _ =>
              Mirrored.ite (fun _ => ?_) fun _ => ?_) cursor outer h out hrun
            · exact Mirrored.pure rfl
            · exact Mirrored.lift (Metered.Mirrors.refl _)
            · exact (mirrored_skipU64 _ _).bind_eq fun _ => ih fuel' (by omega)

theorem mirrored_parseLegacyFrame {start : Nat}
    (hbegins : Begins (fun magic => endsLegacyFrame magic = true) behind) (hstart : start < floor) :
    Mirrored (Inside before input behind floor) Eq (parseLegacyFrame start)
      (parseLegacyFrame (before.length + start)) := by
  refine mirrored_remaining.bind fun ahead ahead' h => ?_
  subst h
  refine (mirrored_parseLegacyBlocks hbegins hstart _ _
    (by rw [List.length_append]; omega)).bind_eq fun _ => Mirrored.lift_next fun _ _ => ?_
  exact Mirrored.pure rfl

def Counters.add (a b : Counters) : Counters :=
  ⟨a.legacyFrames + b.legacyFrames, a.contentChecksumFrames + b.contentChecksumFrames,
    a.blockChecksumFrames + b.blockChecksumFrames, a.dictionaryFrames + b.dictionaryFrames⟩

/-- No counter of the frames that are counted by what they have is above `n`, and that of legacy
frames is not above `legacy`. -/
structure Counters.Fits (legacy n : Nat) (counters : Counters) : Prop where
  legacyFrames : counters.legacyFrames ≤ legacy
  contentChecksumFrames : counters.contentChecksumFrames ≤ n
  blockChecksumFrames : counters.blockChecksumFrames ≤ n
  dictionaryFrames : counters.dictionaryFrames ≤ n

/-- The frame `k` bytes further on. -/
def Lz4Frame.shift (k : Nat) (frame : Lz4Frame) : Lz4Frame :=
  { frame with
    start := k + frame.start
    stop := k + frame.stop }

theorem countFrame_add {parsed : ParsedFrame} {base counters counted : Counters} {n : Nat}
    (h : (countFrame parsed counters).result = .ok counted)
    (hfits : (base.add counters).Fits (n + 1) n) (hn : n + 1 < 2 ^ 64) :
    (countFrame parsed (base.add counters)).result = .ok (base.add counted) ∧
      (base.add counted).Fits (n + 1) (n + 1) := by
  obtain ⟨contentChecksumFrames, hcontent, h⟩ := Metered.bind_eq_ok.mp h
  obtain ⟨blockChecksumFrames, hblock, h⟩ := Metered.bind_eq_ok.mp h
  obtain ⟨dictionaryFrames, hdictionary, hpure⟩ := Metered.bind_eq_ok.mp h
  obtain rfl := Except.ok.inj hpure
  obtain ⟨hrun, hle⟩ := countIf_add hcontent hfits.contentChecksumFrames hn
  obtain ⟨hrun', hle'⟩ := countIf_add hblock hfits.blockChecksumFrames hn
  obtain ⟨hrun'', hle''⟩ := countIf_add hdictionary hfits.dictionaryFrames hn
  exact ⟨Metered.bind_eq_ok.mpr ⟨_, hrun, Metered.bind_eq_ok.mpr ⟨_, hrun',
    Metered.bind_eq_ok.mpr ⟨_, hrun'', rfl⟩⟩⟩, hfits.legacyFrames, hle, hle', hle''⟩

theorem Counters.none_add (counters : Counters) : Counters.add ⟨0, 0, 0, 0⟩ counters = counters := by
  rw [add, Nat.zero_add, Nat.zero_add, Nat.zero_add, Nat.zero_add]

theorem Counters.fits_none : Fits 0 0 ⟨0, 0, 0, 0⟩ :=
  ⟨Nat.le_refl _, Nat.le_refl _, Nat.le_refl _, Nat.le_refl _⟩

theorem Counters.Fits.mono {m n : Nat} {counters : Counters} (hle : m ≤ n) (h : counters.Fits m m) :
    counters.Fits n n :=
  ⟨h.1.trans hle, h.2.trans hle, h.3.trans hle, h.4.trans hle⟩

theorem Lz4Frame.shift_zero (frame : Lz4Frame) : frame.shift 0 = frame := by
  rw [shift, Nat.zero_add, Nat.zero_add]

theorem endsLegacyFrame_of_skippable {magic : Nat} (h : isSkippable magic = true) :
    endsLegacyFrame magic = true := by
  rw [endsLegacyFrame, h, Bool.or_true]

/-- What starts a frame ends a legacy frame before it. -/
theorem endsLegacyFrame_of_readFrame {xxHash32 : Bytes → Nat} {input : Bytes} {start index magic : Nat}
    {counters : Counters} {cursor : StreamCursor} {out : (Counters × ParsedFrame) × StreamCursor}
    (h : (readFrame xxHash32 input start index magic counters cursor).result = .ok out) :
    endsLegacyFrame magic = true := by
  unfold endsLegacyFrame
  by_cases hstandard : magic = lz4Magic
  · rw [decide_eq_true hstandard, Bool.true_or, Bool.true_or]
  · by_cases hlegacy : magic = lz4LegacyMagic
    · rw [decide_eq_true hlegacy, Bool.or_true, Bool.true_or]
    · rw [readFrame, if_neg hstandard, if_neg hlegacy] at h
      cases h

theorem mirrored_readFrame (xxHash32 : Bytes → Nat) {before input behind : Bytes}
    {floor start index index' magic n : Nat} {base counters : Counters}
    (hbegins : Begins (fun magic => endsLegacyFrame magic = true) behind) (hfloor : start + 4 ≤ floor)
    (hsmall : before.length + start + 4 < 2 ^ 64) (hn : n + 1 < 2 ^ 64)
    (hfits : (base.add counters).Fits n n) :
    Mirrored (Inside before input behind floor) (fun out out' => out' = (base.add out.1, out.2) ∧
        ∀ counted, (countFrame out.2 out.1).result = .ok counted →
          (countFrame out.2 (base.add out.1)).result = .ok (base.add counted) ∧
            (base.add counted).Fits (n + 1) (n + 1))
      (readFrame xxHash32 input start index magic counters)
      (readFrame xxHash32 (before ++ (input ++ behind)) (before.length + start) index' magic
        (base.add counters)) := by
  refine Mirrored.ite (fun _ => ?_) fun _ => Mirrored.ite (fun _ => ?_) fun _ => ?_
  · refine (mirrored_parseStandardFrame xxHash32 hsmall).bind_eq fun parsed => ?_
    exact Mirrored.pure ⟨rfl, fun counted hcount =>
      countFrame_add hcount ⟨hfits.1.trans (Nat.le_succ n), hfits.2, hfits.3, hfits.4⟩ hn⟩
  · have hcount : (countOne "lz4" "legacy frame count overflows" counters.legacyFrames).Mirrors
        (fun a b => b = base.legacyFrames + a ∧ b ≤ n + 1)
        (countOne "lz4" "legacy frame count overflows" (base.add counters).legacyFrames) := by
      intro legacyFrames h
      obtain ⟨-, rfl⟩ := countOne_eq_ok.mp h
      have hle : base.legacyFrames + counters.legacyFrames ≤ n := hfits.1
      exact ⟨_, countOne_eq_ok.mpr ⟨show base.legacyFrames + counters.legacyFrames + 1 < 2 ^ 64 by omega,
        rfl⟩, rfl, Nat.succ_le_succ hle⟩
    refine (Mirrored.lift hcount).bind fun legacyFrames _ hlegacy => ?_
    obtain ⟨rfl, hle⟩ := hlegacy
    refine (mirrored_parseLegacyFrame hbegins (by omega)).bind_eq fun parsed => ?_
    exact Mirrored.pure ⟨rfl, fun counted hcount =>
      countFrame_add hcount ⟨hle, hfits.2, hfits.3, hfits.4⟩ hn⟩
  · exact Mirrored.of_error fun _ => ⟨_, rfl⟩

/-- LZ4 frames are read and counted alike wherever they lie. -/
def uniform (xxHash32 : Bytes → Nat) : Uniform (frameFormat xxHash32) where
  none := ⟨0, 0, 0, 0⟩
  add := Counters.add
  fits n := Counters.Fits n n
  starts magic := endsLegacyFrame magic = true
  span frame := (frame.start, frame.stop)
  size := Lz4Frame.contentSize
  shift := Lz4Frame.shift
  none_add := Counters.none_add
  add_none _ := rfl
  fits_none := Counters.fits_none
  fits_mono := Counters.Fits.mono
  shift_zero := Lz4Frame.shift_zero
  shift_record _ _ _ _ := rfl
  span_record _ _ _ := rfl
  size_record _ _ _ := rfl
  starts_skippable := endsLegacyFrame_of_skippable
  starts_frame := endsLegacyFrame_of_readFrame
  mirrored := mirrored_readFrame xxHash32

theorem parse_eq_ok {xxHash32 : Bytes → Nat} {bytes : Bytes} {limits : Limits}
    {out : Lz4StreamInfo × Option Nat × List Lz4Frame} :
    (parse xxHash32 bytes limits).result = .ok out ↔ ∃ totals,
      ((frameFormat xxHash32).parseTotals ⟨0, 0, 0, 0⟩ limits bytes).result = .ok totals ∧
        (streamInfo totals, totals.aggregateSize, totals.frames) = out := by
  rw [parse, Metered.bind_eq_ok]
  exact exists_congr fun totals => and_congr_right fun _ =>
    ⟨fun h => Except.ok.inj h, fun h => congrArg Except.ok h⟩

/-- What is counted in both of two files. -/
def Lz4StreamInfo.join (a b : Lz4StreamInfo) : Lz4StreamInfo where
  frameCount := a.frameCount + b.frameCount
  skippableFrameCount := a.skippableFrameCount + b.skippableFrameCount
  legacyFrameCount := a.legacyFrameCount + b.legacyFrameCount
  contentChecksumFrameCount := a.contentChecksumFrameCount + b.contentChecksumFrameCount
  blockChecksumFrameCount := a.blockChecksumFrameCount + b.blockChecksumFrameCount
  dictionaryFrameCount := a.dictionaryFrameCount + b.dictionaryFrameCount
  maximumBlockBytes := max a.maximumBlockBytes b.maximumBlockBytes

/-- The sum of the content sizes that are declared. -/
def declaredBytes (frames : List Lz4Frame) : Nat :=
  (frames.map fun frame => frame.contentSize.getD 0).sum

/-- An LZ4 file behind another one is an LZ4 file, with the frames of both. -/
theorem lz4_append {xxHash32 : Bytes → Nat} {limits : Limits} {a b : Bytes} {info info' : Lz4StreamInfo}
    {size size' : Option Nat} {frames frames' : List Lz4Frame} (hsmall : (a ++ b).length < 2 ^ 64)
    (ha : (parse xxHash32 a limits).result = .ok (info, size, frames))
    (hb : (parse xxHash32 b limits).result = .ok (info', size', frames'))
    (hcount : info.frameCount + info.skippableFrameCount
      + (info'.frameCount + info'.skippableFrameCount) ≤ limits.maxStreamFrames)
    (hdeclared : declaredBytes frames + declaredBytes frames' < 2 ^ 64) :
    (parse xxHash32 (a ++ b) limits).result
      = .ok (info.join info', joinSizes size size', frames ++ frames'.map (Lz4Frame.shift a.length)) := by
  obtain ⟨totals, hrun, hout⟩ := parse_eq_ok.mp ha
  obtain ⟨totals', hrun', hout'⟩ := parse_eq_ok.mp hb
  cases hout
  cases hout'
  exact parse_eq_ok.mpr ⟨_, (uniform xxHash32).parseTotals_append hsmall hrun hrun' hcount hdeclared, rfl⟩

/-- A legacy frame of one block, which ends with the file. -/
def legacyFile : Bytes := [0x02, 0x21, 0x4c, 0x18, 1, 0, 0, 0, 7]

/-- A standard frame without blocks; its header checksum is `0xc0`. -/
def standardFile : Bytes := [0x04, 0x22, 0x4d, 0x18, 0x40, 0x40, 0xc0, 0, 0, 0, 0]

theorem lz4_append_legacy :
    (parse (fun _ => 270450790) (legacyFile ++ standardFile) {}).result
      = .ok (⟨2, 0, 1, 0, 0, 0, legacyBlockBytes⟩, none,
        [⟨0, 9, none, false, false, 25231360⟩, ⟨9, 20, none, false, false, 262144⟩]) :=
  @lz4_append (fun _ => 270450790) {} legacyFile standardFile ⟨1, 0, 1, 0, 0, 0, legacyBlockBytes⟩
    ⟨1, 0, 0, 0, 0, 0, 65536⟩ none none [⟨0, 9, none, false, false, 25231360⟩]
    [⟨0, 11, none, false, false, 262144⟩] (by decide) (by decide +kernel) (by decide +kernel) (by decide)
    (by decide)

end Lz4

/-- In every file that is accepted, the data frames that are recorded and the skippable frames between
them follow one another from the first byte to the last. -/
theorem frames_tile {input : Bytes} {limits : Limits} (hsmall : input.length < 2 ^ 64) :
    (∀ xxHash32 info size frames, (Lz4.parse xxHash32 input limits).result = .ok (info, size, frames) →
      frames.length = info.frameCount ∧
        Tiles input 0 (frames.map fun frame => (frame.start, frame.stop))) ∧
    (∀ info size frames, (Zstandard.parse input limits).result = .ok (info, size, frames) →
      frames.length = info.frameCount ∧
        Tiles input 0 (frames.map fun frame => (frame.start, frame.stop))) := by
  refine ⟨fun xxHash32 info size frames h => ?_, fun info size frames h => ?_⟩
  · obtain ⟨totals, hrun, hout⟩ := Lz4.parse_eq_ok.mp h
    cases hout
    exact (@Uniform.tiles_of_parseTotals _ _ _ _ (Lz4.uniform xxHash32) _ _ _ hsmall hrun).2
  · obtain ⟨totals, hrun, hout⟩ := Zstandard.parse_eq_ok.mp h
    cases hout
    exact (@Uniform.tiles_of_parseTotals _ _ _ _ (Zstandard.uniform limits) _ _ _ hsmall hrun).2

theorem frames_tile_legacy : Tiles Lz4.legacyFile 0 [(0, 9)] := by
  have hparse : (Lz4.parse (fun _ => 0) Lz4.legacyFile {}).result = .ok (⟨1, 0, 1, 0, 0, 0,
      Lz4.legacyBlockBytes⟩, none, [⟨0, 9, none, false, false, 25231360⟩]) := by decide +kernel
  exact ((@frames_tile Lz4.legacyFile {} (by decide)).1 _ _ _ _ hparse).2

end Un7z
