/-
What a standalone stream is decompressed to.
-/
import Mathlib.Data.List.Forall2
import Un7z.StreamExtraction

namespace Un7z

open Session (result_bind_ok result_lift_bind bind_eq_ok)

namespace Extraction

open CompressedStream (fallibleVec)
open Lz4 (sliceBetween)

variable {limits : Limits} {extraction extraction' : Extraction Bytes}

/-! ### Writing -/

theorem result_get {σ : Type} (extraction : Extraction σ) :
    (get : Extracting σ (Extraction σ)).result extraction = (.ok extraction, extraction) :=
  Session.result_act _ _

/-- The output may be so long. -/
structure Fits (limits : Limits) (size : Nat) : Prop where
  size_lt : size < 2 ^ 64
  entry_le : size ≤ limits.maxEntryOutputBytes
  total_le : size ≤ limits.maxTotalOutputBytes

theorem Fits.mono {size size' : Nat} (h : Fits limits size) (hle : size' ≤ size) : Fits limits size' :=
  ⟨Nat.lt_of_le_of_lt hle h.size_lt, Nat.le_trans hle h.entry_le, Nat.le_trans hle h.total_le⟩

/-- The extraction after these bytes. -/
def written (extraction : Extraction Bytes) (bytes : Bytes) : Extraction Bytes :=
  { extraction with
    writer := extraction.writer ++ bytes
    outputBytes := extraction.outputBytes + bytes.length }

theorem written_nil (extraction : Extraction Bytes) : extraction.written [] = extraction := by
  rw [written, List.append_nil]
  rfl

theorem written_written (extraction : Extraction Bytes) (bytes more : Bytes) :
    (extraction.written bytes).written more = extraction.written (bytes ++ more) := by
  simp only [written, List.append_assoc, List.length_append, Nat.add_assoc]

theorem nextOutputBytes_eq_ok {σ : Type} {extraction : Extraction σ} {additional next : Nat} :
    (extraction.nextOutputBytes limits additional).result = .ok next ↔
      Fits limits (extraction.outputBytes + additional) ∧ extraction.outputBytes + additional = next := by
  rw [nextOutputBytes, Metered.bind_eq_ok]
  constructor
  · rintro ⟨sum, hsum, h⟩
    obtain ⟨hlt, rfl⟩ := checkedAdd_eq_some.mp (orStreamFormat_eq_ok.mp hsum)
    obtain ⟨⟨⟩, hentry, h⟩ := Metered.bind_eq_ok.mp h
    obtain ⟨⟨⟩, htotal, h⟩ := Metered.bind_eq_ok.mp h
    exact ⟨⟨hlt, checkLimit_eq_ok.mp hentry, checkLimit_eq_ok.mp htotal⟩, Except.ok.inj h⟩
  · rintro ⟨hfits, rfl⟩
    refine ⟨_, orStreamFormat_eq_ok.mpr (checkedAdd_of_lt hfits.size_lt), ?_⟩
    rw [Metered.result_bind_ok (checkLimit_of_le hfits.entry_le _),
      Metered.result_bind_ok (checkLimit_of_le hfits.total_le _)]
    rfl

theorem writeOutput_eq_ok {bytes : Bytes} :
    (writeOutput fallibleVec limits bytes).result extraction = (.ok (), extraction') ↔
      Fits limits (extraction.outputBytes + bytes.length) ∧ extraction.written bytes = extraction' := by
  rw [writeOutput, result_lift_bind result_checkCancelled, result_bind_ok (result_get extraction),
    bind_eq_ok]
  constructor
  · rintro ⟨next, after, hnext, hwrite⟩
    obtain ⟨hnext, rfl⟩ := Session.result_lift_eq_ok.mp hnext
    obtain ⟨hfits, rfl⟩ := nextOutputBytes_eq_ok.mp hnext
    exact ⟨hfits, (Prod.mk.inj hwrite).2⟩
  · rintro ⟨hfits, rfl⟩
    exact ⟨_, extraction, Session.result_lift_ok (nextOutputBytes_eq_ok.mpr ⟨hfits, rfl⟩), rfl⟩

theorem result_writeOutput {bytes : Bytes} (h : Fits limits (extraction.outputBytes + bytes.length)) :
    (writeOutput fallibleVec limits bytes).result extraction = (.ok (), extraction.written bytes) :=
  writeOutput_eq_ok.mpr ⟨h, rfl⟩

/-! ### The loop over a decoder -/

variable {δ : Type} {decoder : FrameDecoder δ} {expected : Option Nat} {format : String}
  {frameIndex : Nat} {checksumErrors : Bool}

/-- What a call of `read` is charged for can be counted. -/
structure Counted (charged position units : Nat) : Prop where
  charged_le : charged ≤ position
  work_lt : position - charged + units + 1 < 2 ^ 64

/-- The bytes a decoder reads, piece by piece, up to its end. -/
inductive Yields (decoder : FrameDecoder δ) : (charged : Nat) → δ → List Bytes → δ → Prop
  | done {charged : Nat} {reader last : δ} (hread : decoder.read controlChunkSize reader = (.bytes [], last))
      (hcounted : Counted charged (decoder.consumed last) 0) : Yields decoder charged reader [] last
  | more {charged : Nat} {reader next last : δ} {piece : Bytes} {pieces : List Bytes}
      (hread : decoder.read controlChunkSize reader = (.bytes piece, next)) (hpiece : piece ≠ [])
      (hlength : piece.length ≤ controlChunkSize)
      (hcounted : Counted charged (decoder.consumed next) piece.length)
      (h : Yields decoder (decoder.consumed next) next pieces last) :
      Yields decoder charged reader (piece :: pieces) last

/-- The frame is no longer than it is declared to be. -/
def Allowed (expected : Option Nat) (size : Nat) : Prop := ∀ declared ∈ expected, size ≤ declared

theorem readingOf_eq_ok {reading : Reading} {bytes : Bytes} :
    (readingOf format frameIndex checksumErrors reading).result = .ok bytes ↔ reading = .bytes bytes := by
  cases reading with
  | bytes read =>
      constructor
      · intro h
        exact congrArg _ (Except.ok.inj h)
      · intro h
        exact congrArg _ (Reading.bytes.inj h)
  | panicked =>
      constructor
      · intro h
        cases h
      · intro h
        cases h
  | failed checksum =>
      constructor
      · intro h
        obtain ⟨⟨⟩, -, h⟩ := Metered.bind_eq_ok.mp h
        split at h <;> cases h
      · intro h
        cases h

theorem pumpRound_eq_ok {charged charged' : Nat} {reader next : δ} {bytes : Bytes} :
    (pumpRound decoder format frameIndex checksumErrors charged reader).result
        = .ok (bytes, next, charged') ↔
      decoder.read controlChunkSize reader = (.bytes bytes, next) ∧
        Counted charged (decoder.consumed next) bytes.length ∧ decoder.consumed next = charged' := by
  rw [pumpRound, Metered.result_bind_ok (result_checkpoint 0)]
  rcases hread : decoder.read controlChunkSize reader with ⟨reading, after⟩
  dsimp only
  rw [Metered.bind_eq_ok]
  constructor
  · rintro ⟨read, hreading, h⟩
    obtain rfl := readingOf_eq_ok.mp hreading
    obtain ⟨delta, hdelta, h⟩ := Metered.bind_eq_ok.mp h
    obtain ⟨hle, rfl⟩ := checkedSub_eq_some.mp (orStreamFormat_eq_ok.mp hdelta)
    obtain ⟨units, hunits, h⟩ := Metered.bind_eq_ok.mp h
    obtain ⟨-, rfl⟩ := checkedAdd_eq_some.mp (orStreamFormat_eq_ok.mp hunits)
    obtain ⟨work, hwork, h⟩ := Metered.bind_eq_ok.mp h
    obtain ⟨hlt, rfl⟩ := checkedAdd_eq_some.mp (orStreamFormat_eq_ok.mp hwork)
    obtain ⟨⟨⟩, -, h⟩ := Metered.bind_eq_ok.mp h
    cases h
    exact ⟨rfl, ⟨hle, hlt⟩, rfl⟩
  · rintro ⟨heq, hcounted, rfl⟩
    obtain ⟨rfl, rfl⟩ := Prod.mk.inj heq
    have hlt := hcounted.work_lt
    refine ⟨bytes, rfl, ?_⟩
    rw [Metered.result_bind_ok (orStreamFormat_eq_ok.mpr (checkedSub_of_le hcounted.charged_le)),
      Metered.result_bind_ok (orStreamFormat_eq_ok.mpr (checkedAdd_of_lt (by omega))),
      Metered.result_bind_ok (orStreamFormat_eq_ok.mpr (checkedAdd_of_lt hlt)),
      Metered.result_bind_ok (result_checkpoint _)]
    rfl

theorem frameOutput_eq_ok {σ : Type} {before after : Extraction σ} {startOutput output : Nat} :
    (frameOutput format startOutput).result before = (.ok output, after) ↔
      startOutput ≤ before.outputBytes ∧ before.outputBytes - startOutput = output ∧ after = before := by
  rw [frameOutput, result_bind_ok (result_get before), Session.result_lift_eq_ok, orStreamFormat_eq_ok,
    checkedSub_eq_some, and_assoc, @eq_comm _ output]

theorem pumpBytes_eq_ok {startOutput : Nat} {bytes : Bytes} (hstart : startOutput ≤ extraction.outputBytes) :
    (pumpBytes fallibleVec limits expected format startOutput bytes).result extraction
        = (.ok (), extraction') ↔
      bytes.length ≤ controlChunkSize ∧ Fits limits (extraction.outputBytes + bytes.length) ∧
        Allowed expected (extraction.outputBytes - startOutput + bytes.length) ∧
        extraction.written bytes = extraction' := by
  have hlater : startOutput ≤ (extraction.written bytes).outputBytes :=
    Nat.le_trans hstart (Nat.le_add_right _ _)
  have hsize : (extraction.written bytes).outputBytes - startOutput
      = extraction.outputBytes - startOutput + bytes.length := by
    show extraction.outputBytes + bytes.length - startOutput = _
    omega
  unfold pumpBytes
  by_cases hlong : bytes.length > controlChunkSize
  · rw [if_pos hlong]
    constructor
    · intro h
      cases (Session.result_lift_eq_ok.mp h).1
    · intro h
      omega
  · rw [if_neg hlong, bind_eq_ok]
    constructor
    · rintro ⟨⟨⟩, after, hwrite, h⟩
      obtain ⟨hfits, rfl⟩ := writeOutput_eq_ok.mp hwrite
      refine ⟨Nat.le_of_not_lt hlong, hfits, ?_⟩
      cases expected with
      | none => exact ⟨fun declared hmem => absurd hmem (by simp), (Prod.mk.inj h).2⟩
      | some declared =>
          obtain ⟨output, after, houtput, h⟩ := bind_eq_ok.mp h
          obtain ⟨-, rfl, rfl⟩ := frameOutput_eq_ok.mp houtput
          rw [hsize] at h
          by_cases hmore : extraction.outputBytes - startOutput + bytes.length > declared
          · rw [if_pos hmore] at h
            cases (Session.result_lift_eq_ok.mp h).1
          · rw [if_neg hmore] at h
            refine ⟨fun declared' hmem => ?_, (Prod.mk.inj h).2⟩
            obtain rfl := Option.some.inj hmem
            exact Nat.le_of_not_lt hmore
    · rintro ⟨-, hfits, hallowed, rfl⟩
      refine ⟨(), _, result_writeOutput hfits, ?_⟩
      cases expected with
      | none => rfl
      | some declared =>
          dsimp only
          rw [result_bind_ok (frameOutput_eq_ok.mpr ⟨hlater, hsize, rfl⟩),
            if_neg (Nat.not_lt.mpr (hallowed declared rfl))]
          rfl

/-- **The rounds** read what the decoder yields, as long as it may be written. -/
theorem pumpRounds_eq_ok {startOutput : Nat} (fuel : Nat) :
    ∀ {charged charged' : Nat} {reader last : δ} {extraction extraction' : Extraction Bytes},
      startOutput ≤ extraction.outputBytes → Fits limits extraction.outputBytes →
      limits.maxEntryOutputBytes < extraction.outputBytes + fuel →
      Allowed expected (extraction.outputBytes - startOutput) →
      ((pumpRounds fallibleVec limits decoder expected format frameIndex checksumErrors startOutput fuel
          charged reader).result extraction = (.ok (last, charged'), extraction') ↔
        ∃ pieces, Yields decoder charged reader pieces last ∧ decoder.consumed last = charged' ∧
          Fits limits (extraction.outputBytes + pieces.flatten.length) ∧
          Allowed expected (extraction.outputBytes - startOutput + pieces.flatten.length) ∧
          extraction.written pieces.flatten = extraction') := by
  induction fuel with
  | zero =>
      intro charged charged' reader last extraction extraction' _ hfits hfuel _
      have hle := hfits.entry_le
      omega
  | succ fuel ih =>
      intro charged charged' reader last extraction extraction' hstart hfits hfuel hallowed
      -- behind a piece, the rounds go on from a longer output with less fuel
      have rest : ∀ {bytes : Bytes} {position : Nat} {next : δ}, bytes ≠ [] →
          Fits limits (extraction.outputBytes + bytes.length) →
          Allowed expected (extraction.outputBytes - startOutput + bytes.length) →
          ((pumpRounds fallibleVec limits decoder expected format frameIndex checksumErrors startOutput
              fuel position next).result (extraction.written bytes) = (.ok (last, charged'), extraction') ↔
            ∃ pieces, Yields decoder position next pieces last ∧ decoder.consumed last = charged' ∧
              Fits limits (extraction.outputBytes + bytes.length + pieces.flatten.length) ∧
              Allowed expected
                (extraction.outputBytes - startOutput + bytes.length + pieces.flatten.length) ∧
              (extraction.written bytes).written pieces.flatten = extraction') := by
        intro bytes position next hpiece hfits' hallowed'
        have hpos := List.length_pos_iff.mpr hpiece
        have hsize : (extraction.written bytes).outputBytes - startOutput
            = extraction.outputBytes - startOutput + bytes.length := by
          show extraction.outputBytes + bytes.length - startOutput = _
          omega
        have hfuel' : limits.maxEntryOutputBytes < (extraction.written bytes).outputBytes + fuel := by
          show _ < extraction.outputBytes + bytes.length + fuel
          omega
        rw [ih (Nat.le_trans hstart (Nat.le_add_right _ _)) hfits' hfuel' (by rwa [hsize]), hsize]
        exact Iff.rfl
      rw [pumpRounds]
      constructor
      · intro h
        obtain ⟨⟨bytes, next, position⟩, same, hlift, hrest⟩ := bind_eq_ok.mp h
        obtain ⟨hround, heq⟩ := Session.result_lift_eq_ok.mp hlift
        obtain ⟨hread, hcounted, hposition⟩ := pumpRound_eq_ok.mp hround
        subst heq hposition
        dsimp only at hrest
        by_cases hempty : bytes.isEmpty = true
        · rw [if_pos hempty] at hrest
          rw [List.isEmpty_iff] at hempty
          subst hempty
          cases hrest
          exact ⟨[], .done hread hcounted, rfl, hfits, hallowed, written_nil _⟩
        · rw [if_neg hempty] at hrest
          obtain ⟨⟨⟩, after, hbytes, hmore⟩ := bind_eq_ok.mp hrest
          obtain ⟨hlength, hfits', hallowed', hafter⟩ := (pumpBytes_eq_ok hstart).mp hbytes
          have hpiece : bytes ≠ [] := fun heq => hempty (by rw [heq]; rfl)
          subst hafter
          obtain ⟨pieces, hyields, hlast, hall, hsize, hwritten⟩ := (rest hpiece hfits' hallowed').mp hmore
          refine ⟨bytes :: pieces, .more hread hpiece hlength hcounted hyields, hlast, ?_, ?_, ?_⟩
          · rwa [List.flatten_cons, List.length_append, ← Nat.add_assoc]
          · rwa [List.flatten_cons, List.length_append, ← Nat.add_assoc]
          · rwa [List.flatten_cons, ← written_written]
      · rintro ⟨pieces, hyields, hlast, hall, hsize, hwritten⟩
        subst hlast hwritten
        cases hyields with
        | done hread hcounted =>
            rw [Session.result_lift_bind (pumpRound_eq_ok.mpr ⟨hread, hcounted, rfl⟩)]
            dsimp only
            rw [List.flatten_nil, written_nil]
            rfl
        | more hread hpiece hlength hcounted hyields =>
            rename_i next bytes pieces
            rw [List.flatten_cons, List.length_append, ← Nat.add_assoc] at hall hsize
            have hempty : ¬ bytes.isEmpty = true := fun h => hpiece (List.isEmpty_iff.mp h)
            have hfits' : Fits limits (extraction.outputBytes + bytes.length) := hall.mono (Nat.le_add_right _ _)
            have hallowed' : Allowed expected (extraction.outputBytes - startOutput + bytes.length) :=
              fun declared hmem => Nat.le_trans (Nat.le_add_right _ _) (hsize declared hmem)
            rw [Session.result_lift_bind (pumpRound_eq_ok.mpr ⟨hread, hcounted, rfl⟩)]
            dsimp only
            rw [if_neg hempty,
              result_bind_ok ((pumpBytes_eq_ok hstart).mpr ⟨hlength, hfits', hallowed', rfl⟩)]
            exact (rest hpiece hfits' hallowed').mpr ⟨pieces, hyields, rfl, hall, hsize,
              written_written _ _ _⟩

/-- **A decoder is pumped** exactly when what it yields may be written and is as long as declared. -/
theorem pumpReader_eq_ok {reader last : δ} (hfits : Fits limits extraction.outputBytes) :
    (pumpReader fallibleVec limits decoder expected format frameIndex checksumErrors reader).result
        extraction = (.ok last, extraction') ↔
      ∃ pieces, Yields decoder 0 reader pieces last ∧
        Fits limits (extraction.outputBytes + pieces.flatten.length) ∧
        (∀ declared ∈ expected, declared = pieces.flatten.length) ∧
        extraction.written pieces.flatten = extraction' := by
  have hrounds := fun last charged extraction' => @pumpRounds_eq_ok limits δ decoder expected format
    frameIndex checksumErrors extraction.outputBytes (limits.maxEntryOutputBytes + 2) 0 charged reader
    last extraction extraction' (Nat.le_refl _) hfits (by omega)
    (fun declared _ => by rw [Nat.sub_self]; exact Nat.zero_le _)
  have hany : ∀ size, expected.any (· ≠ size) = true ↔ ¬ ∀ declared ∈ expected, declared = size := by
    intro size
    cases expected <;> simp
  rw [pumpReader, result_bind_ok (result_get extraction)]
  constructor
  · intro h
    obtain ⟨⟨end', charged⟩, after, hrun, hrest⟩ := bind_eq_ok.mp h
    obtain ⟨pieces, hyields, hcharged, hall, -, hafter⟩ := (hrounds _ _ _).mp hrun
    subst hcharged hafter
    obtain ⟨actual, same, hactual, hrest⟩ := bind_eq_ok.mp hrest
    obtain ⟨-, hsize, heq⟩ := frameOutput_eq_ok.mp hactual
    subst heq
    have hlength : pieces.flatten.length = actual := by
      rw [← hsize]
      exact (Nat.add_sub_cancel_left _ _).symm
    subst hlength
    by_cases hdeclared : ∀ declared ∈ expected, declared = pieces.flatten.length
    · rw [if_neg (mt (hany _).mp (not_not_intro hdeclared)), if_neg (not_not_intro rfl)] at hrest
      cases hrest
      exact ⟨pieces, hyields, hall, hdeclared, rfl⟩
    · rw [if_pos ((hany _).mpr hdeclared)] at hrest
      cases (Session.result_lift_eq_ok.mp hrest).1
  · rintro ⟨pieces, hyields, hall, hdeclared, hafter⟩
    subst hafter
    have hallowed : Allowed expected (extraction.outputBytes - extraction.outputBytes
        + pieces.flatten.length) := by
      intro declared hmem
      exact Nat.le_of_eq (by rw [Nat.sub_self, Nat.zero_add, hdeclared declared hmem])
    have houtput : (frameOutput format extraction.outputBytes).result
        (extraction.written pieces.flatten) = (.ok pieces.flatten.length, extraction.written pieces.flatten) :=
      frameOutput_eq_ok.mpr ⟨Nat.le_add_right _ _, Nat.add_sub_cancel_left _ _, rfl⟩
    rw [result_bind_ok ((hrounds _ _ _).mpr ⟨pieces, hyields, rfl, hall, hallowed, rfl⟩)]
    dsimp only
    rw [result_bind_ok houtput, if_neg (mt (hany _).mp (not_not_intro hdeclared)),
      if_neg (not_not_intro rfl)]
    rfl

/-! ### The frames -/

/-- The extraction after one more frame. -/
def finished {σ : Type} (extraction : Extraction σ) (checksum : Bool) : Extraction σ :=
  { extraction with
    framesDecoded := extraction.framesDecoded + 1
    checksumsVerified := extraction.checksumsVerified + checksum.toNat }

/-- The counters can count this many more frames, and this many more checksums. -/
structure Countable {σ : Type} (extraction : Extraction σ) (frames checksums : Nat) : Prop where
  frames_lt : extraction.framesDecoded + frames < 2 ^ 64
  checksums_lt : extraction.checksumsVerified + checksums < 2 ^ 64

theorem Countable.written {frames checksums : Nat} (h : Countable extraction frames checksums)
    (bytes : Bytes) : Countable (extraction.written bytes) frames checksums := ⟨h.1, h.2⟩

theorem finishFrame_eq_ok {σ : Type} {before after : Extraction σ} {checksum : Bool}
    (hcountable : Countable before 0 0) :
    (finishFrame checksum).result before = (.ok (), after) ↔
      Countable before 1 checksum.toNat ∧ before.finished checksum = after := by
  have hchecksums := hcountable.checksums_lt
  rw [finishFrame, result_bind_ok (result_get before)]
  constructor
  · intro h
    obtain ⟨frames, same, hlift, hrest⟩ := bind_eq_ok.mp h
    obtain ⟨hframes, heq⟩ := Session.result_lift_eq_ok.mp hlift
    obtain ⟨hlt, hcount⟩ := checkedAdd_eq_some.mp (orStreamFormat_eq_ok.mp hframes)
    subst heq hcount
    obtain ⟨checksums, same, hlift', hset⟩ := bind_eq_ok.mp hrest
    obtain ⟨hverified, heq⟩ := Session.result_lift_eq_ok.mp hlift'
    subst heq
    obtain ⟨-, hafter⟩ := Prod.mk.inj hset
    subst hafter
    cases checksum with
    | false =>
        obtain rfl := Except.ok.inj hverified
        exact ⟨⟨hlt, hchecksums⟩, rfl⟩
    | true =>
        obtain ⟨hlt', rfl⟩ := checkedAdd_eq_some.mp (orStreamFormat_eq_ok.mp hverified)
        exact ⟨⟨hlt, hlt'⟩, rfl⟩
  · rintro ⟨⟨hlt, hlt'⟩, rfl⟩
    have hframes : (countOne "compressed" "decoded frame count overflows" before.framesDecoded).result
        = .ok (before.framesDecoded + 1) := orStreamFormat_eq_ok.mpr (checkedAdd_of_lt hlt)
    have hverified : (countIf checksum "compressed" "verified checksum count overflows"
        before.checksumsVerified).result = .ok (before.checksumsVerified + checksum.toNat) := by
      cases checksum with
      | false => rfl
      | true => exact orStreamFormat_eq_ok.mpr (checkedAdd_of_lt hlt')
    rw [Session.result_lift_bind hframes, Session.result_lift_bind hverified]
    rfl

section Frames

variable {φ : Type} {input : Bytes} {layout : FrameLayout δ φ}

/-- Whether a frame is verified does not depend on where it is counted. -/
def FrameLayout.IndexFree (layout : FrameLayout δ φ) : Prop :=
  ∀ frame reader index index', (layout.verifies frame index reader).result = .ok () →
    (layout.verifies frame index' reader).result = .ok ()

/-- The content of a frame: what the decoder yields of its bytes, all of which it consumes. -/
structure Content (limits : Limits) (input : Bytes) (layout : FrameLayout δ φ) (frame : φ)
    (content : Bytes) : Prop where
  memory_le : layout.memory frame ≤ limits.maxDictionaryBytes
  dictionary_eq : layout.dictionary frame = false
  declared : ∀ declared ∈ layout.contentSize frame, declared = content.length
  yields : ∃ bytes reader pieces last,
    sliceBetween input (layout.start frame) (layout.stop frame) = some bytes ∧
    (layout.opens bytes).result = .ok reader ∧ Yields layout.decoder 0 reader pieces last ∧
    layout.decoder.consumed last = bytes.length ∧
    (∀ index, (layout.verifies frame index last).result = .ok ()) ∧ pieces.flatten = content

theorem openFrame_eq_ok {frame : φ} {bytes : Bytes} {reader : δ} :
    (openFrame limits input layout frame).result = .ok (bytes, reader) ↔
      layout.memory frame ≤ limits.maxDictionaryBytes ∧ layout.dictionary frame = false ∧
      sliceBetween input (layout.start frame) (layout.stop frame) = some bytes ∧
      (layout.opens bytes).result = .ok reader := by
  rw [openFrame, Metered.result_bind_ok (result_checkpoint 0)]
  constructor
  · intro h
    obtain ⟨⟨⟩, hmemory, hrest⟩ := Metered.bind_eq_ok.mp h
    by_cases hdictionary : layout.dictionary frame = true
    · rw [if_pos hdictionary] at hrest
      cases hrest
    · rw [if_neg hdictionary] at hrest
      obtain ⟨slice, hslice, hrest⟩ := Metered.bind_eq_ok.mp hrest
      obtain ⟨opened, hopened, hrest⟩ := Metered.bind_eq_ok.mp hrest
      cases hrest
      exact ⟨checkLimit_eq_ok.mp hmemory, Bool.not_eq_true _ ▸ hdictionary,
        orStreamFormat_eq_ok.mp hslice, hopened⟩
  · rintro ⟨hmemory, hdictionary, hslice, hopened⟩
    rw [Metered.result_bind_ok (checkLimit_of_le hmemory _), if_neg (by rw [hdictionary]; decide),
      Metered.result_bind_ok (orStreamFormat_eq_ok.mpr hslice), Metered.result_bind_ok hopened]
    rfl

/-- The extraction after the content of one more frame. -/
def frameWritten (layout : FrameLayout δ φ) (extraction : Extraction Bytes) (frame : φ)
    (content : Bytes) : Extraction Bytes :=
  (extraction.written content).finished (layout.checksum frame)

/-- **A frame is extracted** exactly when it has a content, which may be written. -/
theorem extractFrame_eq_ok (hfree : layout.IndexFree) {frame : φ}
    (hfits : Fits limits extraction.outputBytes) (hcountable : Countable extraction 0 0) :
    (extractFrame fallibleVec limits input layout frameIndex frame).result extraction
        = (.ok (), extraction') ↔
      ∃ content, Content limits input layout frame content ∧
        Fits limits (extraction.outputBytes + content.length) ∧
        Countable extraction 1 (layout.checksum frame).toNat ∧
        extraction.frameWritten layout frame content = extraction' := by
  rw [extractFrame]
  constructor
  · intro h
    obtain ⟨⟨bytes, reader⟩, same, hlift, hrest⟩ := bind_eq_ok.mp h
    obtain ⟨hopen, heq⟩ := Session.result_lift_eq_ok.mp hlift
    obtain ⟨hmemory, hdictionary, hslice, hopened⟩ := openFrame_eq_ok.mp hopen
    subst heq
    obtain ⟨last, after, hpump, hrest⟩ := bind_eq_ok.mp hrest
    obtain ⟨pieces, hyields, hall, hdeclared, hafter⟩ := (pumpReader_eq_ok hfits).mp hpump
    subst hafter
    by_cases hconsumed : layout.decoder.consumed last ≠ bytes.length
    · rw [if_pos hconsumed] at hrest
      cases (Session.result_lift_eq_ok.mp hrest).1
    · rw [if_neg hconsumed] at hrest
      obtain ⟨⟨⟩, same, hlift, hfinish⟩ := bind_eq_ok.mp hrest
      obtain ⟨hverified, heq⟩ := Session.result_lift_eq_ok.mp hlift
      subst heq
      obtain ⟨hcount, hdone⟩ := (finishFrame_eq_ok (hcountable.written _)).mp hfinish
      exact ⟨pieces.flatten, ⟨hmemory, hdictionary, hdeclared, bytes, reader, pieces, last, hslice,
        hopened, hyields, Decidable.not_not.mp hconsumed, fun index => hfree _ _ _ _ hverified, rfl⟩,
        hall, ⟨hcount.1, hcount.2⟩, hdone⟩
  · rintro ⟨content, hcontent, hall, hcount, hdone⟩
    obtain ⟨bytes, reader, pieces, last, hslice, hopened, hyields, hconsumed, hverified, hpieces⟩ :=
      hcontent.yields
    have hdeclared := hcontent.declared
    subst hdone hpieces
    rw [Session.result_lift_bind (openFrame_eq_ok.mpr
      ⟨hcontent.memory_le, hcontent.dictionary_eq, hslice, hopened⟩)]
    dsimp only
    rw [result_bind_ok ((pumpReader_eq_ok hfits).mpr ⟨pieces, hyields, hall, hdeclared, rfl⟩),
      if_neg (not_not_intro hconsumed), Session.result_lift_bind (hverified frameIndex)]
    exact (finishFrame_eq_ok (hcountable.written _)).mpr ⟨hcount.written _, rfl⟩

/-- The extraction after the contents of frames. -/
def framesWritten (layout : FrameLayout δ φ) (extraction : Extraction Bytes) (frames : List φ)
    (contents : List Bytes) : Extraction Bytes :=
  { extraction.written contents.flatten with
    framesDecoded := extraction.framesDecoded + frames.length
    checksumsVerified := extraction.checksumsVerified + frames.countP layout.checksum }

theorem framesWritten_cons (layout : FrameLayout δ φ) (extraction : Extraction Bytes) (frame : φ)
    (frames : List φ) (content : Bytes) (contents : List Bytes) :
    (extraction.frameWritten layout frame content).framesWritten layout frames contents
      = extraction.framesWritten layout (frame :: frames) (content :: contents) := by
  simp only [framesWritten, frameWritten, finished, written, List.flatten_cons, List.append_assoc,
    List.length_append, Nat.add_assoc, List.length_cons, List.countP_cons]
  congr 1
  · congr 1
    omega
  · cases layout.checksum frame
    · simp
    · simp
      omega

/-- **Frames are extracted** exactly when each has a content, and all of them may be written. -/
theorem extractFrames_eq_ok (hfree : layout.IndexFree) (frames : List φ) :
    ∀ {index : Nat} {extraction extraction' : Extraction Bytes},
      Fits limits extraction.outputBytes → Countable extraction 0 0 →
      ((extractFrames fallibleVec limits input layout index frames).result extraction
          = (.ok (), extraction') ↔
        ∃ contents, List.Forall₂ (Content limits input layout) frames contents ∧
          Fits limits (extraction.outputBytes + contents.flatten.length) ∧
          Countable extraction frames.length (frames.countP layout.checksum) ∧
          extraction.framesWritten layout frames contents = extraction') := by
  induction frames with
  | nil =>
      intro index extraction extraction' hfits hcountable
      constructor
      · intro h
        cases h
        exact ⟨[], .nil, hfits, hcountable, by rw [framesWritten, List.flatten_nil, written_nil]; rfl⟩
      · rintro ⟨contents, hcontents, -, -, hdone⟩
        cases hcontents
        rw [framesWritten, List.flatten_nil, written_nil] at hdone
        subst hdone
        rfl
  | cons frame frames ih =>
      intro index extraction extraction' hfits hcountable
      have hlength : (frame :: frames).length = 1 + frames.length := Nat.add_comm _ _
      have hcounted : (frame :: frames).countP layout.checksum
          = (layout.checksum frame).toNat + frames.countP layout.checksum := by
        rw [List.countP_cons, Nat.add_comm]
        cases layout.checksum frame <;> rfl
      rw [extractFrames, hlength, hcounted]
      constructor
      · intro h
        obtain ⟨⟨⟩, after, hframe, hrest⟩ := bind_eq_ok.mp h
        obtain ⟨content, hcontent, hfits', hcount, hafter⟩ :=
          (extractFrame_eq_ok hfree hfits hcountable).mp hframe
        subst hafter
        obtain ⟨contents, hcontents, hall, hcounts, hdone⟩ := (ih hfits' ⟨hcount.1, hcount.2⟩).mp hrest
        refine ⟨content :: contents, .cons hcontent hcontents, ?_, ⟨?_, ?_⟩, ?_⟩
        · rwa [List.flatten_cons, List.length_append, ← Nat.add_assoc]
        · rw [← Nat.add_assoc]
          exact hcounts.1
        · rw [← Nat.add_assoc]
          exact hcounts.2
        · rw [← framesWritten_cons, hdone]
      · rintro ⟨contents, hcontents, hall, hcounts, hdone⟩
        cases hcontents with
        | cons hcontent hcontents =>
            rename_i content contents
            rw [List.flatten_cons, List.length_append, ← Nat.add_assoc] at hall
            have hframes := hcounts.1
            have hchecksums := hcounts.2
            have hcount : Countable extraction 1 (layout.checksum frame).toNat :=
              ⟨by omega, by omega⟩
            have hfits' : Fits limits (extraction.outputBytes + content.length) :=
              hall.mono (Nat.le_add_right _ _)
            rw [result_bind_ok ((extractFrame_eq_ok hfree hfits hcountable).mpr
              ⟨content, hcontent, hfits', hcount, rfl⟩)]
            refine (ih hfits' ⟨hcount.1, hcount.2⟩).mpr ⟨contents, hcontents, hall, ⟨?_, ?_⟩, ?_⟩
            · show extraction.framesDecoded + 1 + frames.length < _
              omega
            · show extraction.checksumsVerified + (layout.checksum frame).toNat + _ < _
              omega
            · rw [framesWritten_cons, hdone]

end Frames

end Extraction

/-! ### Streams -/

theorem Lz4.indexFree {δ : Type} (decoder : Lz4Decoder δ) : (Lz4.layout decoder).IndexFree :=
  fun _ _ _ _ h => h

theorem Zstandard.indexFree {δ : Type} (decoder : ZstandardDecoder δ) :
    (Zstandard.layout decoder).IndexFree := by
  intro frame reader index index' h
  have h : (verifyChecksum decoder frame index reader).result = .ok () := h
  show (verifyChecksum decoder frame index' reader).result = .ok ()
  unfold verifyChecksum at h ⊢
  by_cases hchecksum : frame.checksum = true
  · rw [if_pos hchecksum] at h ⊢
    obtain ⟨stored, hstored, h⟩ := Metered.bind_eq_ok.mp h
    obtain ⟨calculated, hcalculated, h⟩ := Metered.bind_eq_ok.mp h
    rw [orStreamFormat_eq_ok] at hstored hcalculated
    rw [hstored, hcalculated]
    by_cases heq : stored ≠ calculated
    · rw [if_pos heq] at h
      cases h
    · show (if stored ≠ calculated then _ else _ : Work Unit).result = _
      rw [if_neg heq]
      rfl
  · rw [if_neg hchecksum]
    rfl

namespace CompressedStream

open Extraction (FrameLayout Content Fits)

variable {δ δ' ρ φ : Type} {decoders : StreamDecoders δ δ'} {stream : CompressedStream}
  {layout : FrameLayout ρ φ} {frames : List φ}

/-- What a stream of frames is decompressed to. -/
structure Holds (stream : CompressedStream) (layout : FrameLayout ρ φ) (frames : List φ)
    (contents : List Bytes) : Prop where
  each : List.Forall₂ (Content stream.limits stream.bytes layout) frames contents
  fits : Fits stream.limits contents.flatten.length
  declared : ∀ declared ∈ stream.info.uncompressedSize, declared = contents.flatten.length

/-- **Extraction** of a stream of frames into a buffer, with what is counted on the way. -/
theorem extractTo_eq_ok {summary : StreamExtraction} {extraction : Extraction Bytes}
    (hextract : stream.extractLayout decoders fallibleVec
      = Extraction.extractFrames fallibleVec stream.limits stream.bytes layout 0 frames)
    (hfree : layout.IndexFree) (hframes : frames.length < 2 ^ 64) :
    (stream.extractTo decoders fallibleVec).result ⟨[], 0, 0, 0⟩ = (.ok summary, extraction) ↔
      ∃ contents, stream.Holds layout frames contents ∧ extraction = ⟨contents.flatten,
        contents.flatten.length, frames.length, frames.countP layout.checksum⟩ ∧
      extraction.finish = summary := by
  have hstart : Fits stream.limits (⟨[], 0, 0, 0⟩ : Extraction Bytes).outputBytes :=
    ⟨by decide, Nat.zero_le _, Nat.zero_le _⟩
  have hrun := fun extraction' => @Extraction.extractFrames_eq_ok stream.limits ρ φ stream.bytes layout
    hfree frames 0 ⟨[], 0, 0, 0⟩ extraction' hstart ⟨by decide, by decide⟩
  have hwritten : ∀ contents, (⟨[], 0, 0, 0⟩ : Extraction Bytes).framesWritten layout frames contents
      = ⟨contents.flatten, contents.flatten.length, frames.length, frames.countP layout.checksum⟩ := by
    intro contents
    simp only [Extraction.framesWritten, Extraction.written, List.nil_append, Nat.zero_add]
  have hany : ∀ size, stream.info.uncompressedSize.any (· ≠ size) = true ↔
      ¬ ∀ declared ∈ stream.info.uncompressedSize, declared = size := by
    intro size
    cases stream.info.uncompressedSize <;> simp
  rw [extractTo, hextract]
  constructor
  · intro h
    obtain ⟨⟨⟩, after, hall, hrest⟩ := bind_eq_ok.mp h
    obtain ⟨contents, hcontents, hfits, -, hafter⟩ := (hrun after).mp hall
    rw [hwritten] at hafter
    subst hafter
    rw [result_bind_ok (Extraction.result_get _)] at hrest
    rw [Nat.zero_add] at hfits
    by_cases hdeclared : ∀ declared ∈ stream.info.uncompressedSize, declared = contents.flatten.length
    · rw [if_neg (mt (hany _).mp (not_not_intro hdeclared))] at hrest
      cases hrest
      exact ⟨contents, ⟨hcontents, hfits, hdeclared⟩, rfl, rfl⟩
    · rw [if_pos ((hany _).mpr hdeclared)] at hrest
      cases (Session.result_lift_eq_ok.mp hrest).1
  · rintro ⟨contents, ⟨hcontents, hfits, hdeclared⟩, rfl, rfl⟩
    have hcount : frames.countP layout.checksum ≤ frames.length := List.countP_le_length
    have hall := (hrun _).mpr ⟨contents, hcontents, by rwa [Nat.zero_add],
      ⟨by rwa [Nat.zero_add], by rw [Nat.zero_add]; omega⟩, hwritten contents⟩
    rw [result_bind_ok hall, result_bind_ok (Extraction.result_get _),
      if_neg (mt (hany _).mp (not_not_intro hdeclared))]
    rfl

theorem decompress_eq_ok {out : Bytes}
    (hextract : stream.extractLayout decoders fallibleVec
      = Extraction.extractFrames fallibleVec stream.limits stream.bytes layout 0 frames)
    (hfree : layout.IndexFree) (hframes : frames.length < 2 ^ 64) :
    (stream.decompress decoders).result = .ok out ↔
      ∃ contents, stream.Holds layout frames contents ∧ contents.flatten = out := by
  rw [decompress, Session.result_discard]
  constructor
  · intro h
    obtain ⟨extraction, hrun⟩ : ∃ extraction, (do
        let _ ← stream.extractTo decoders fallibleVec
        let extraction ← Extraction.get
        pure extraction.writer : Extracting Bytes Bytes).result ⟨[], 0, 0, 0⟩ = (.ok out, extraction) :=
      ⟨_, Prod.ext h rfl⟩
    obtain ⟨summary, after, hextracted, hrest⟩ := bind_eq_ok.mp hrun
    obtain ⟨contents, hholds, rfl, -⟩ := (extractTo_eq_ok hextract hfree hframes).mp hextracted
    rw [result_bind_ok (Extraction.result_get _)] at hrest
    cases hrest
    exact ⟨contents, hholds, rfl⟩
  · rintro ⟨contents, hholds, rfl⟩
    rw [result_bind_ok ((extractTo_eq_ok hextract hfree hframes).mpr ⟨contents, hholds, rfl, rfl⟩),
      result_bind_ok (Extraction.result_get _)]
    rfl

end CompressedStream

end Un7z
