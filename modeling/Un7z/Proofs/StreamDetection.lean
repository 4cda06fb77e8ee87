/-
Detection of stream formats agrees with the parsers.

A parser that accepts has come to a data frame, and all the frames before it were
skippable ones: the input leads to the magic of that frame (`Leads`).  Where an input
leads does not depend on who follows it, so `detect_format` comes to the same magic, and
no other parser can accept it.  Unix `compress` is told apart by its first two bytes,
which no other magic begins with.
-/
import Un7z.CompressedStream
import Un7z.Proofs.StreamReads

namespace Un7z

open StreamCursor (Holds Advanced readU32Le_eq_ok skipU64_eq_ok)

/-! ### Where an input leads -/

/-- The word at this position, with room for it. -/
def WordAt (bytes : Bytes) (position word : Nat) : Prop :=
  position + 4 < 2 ^ 64 ∧ position + 4 ≤ bytes.length ∧
    word = leValue ((bytes.drop position).take 4)

/-- Behind skippable frames, from this position on, there is a frame with this magic. -/
inductive Leads (bytes : Bytes) : Nat → Nat → Prop
  | here {position magic : Nat} : WordAt bytes position magic → isSkippable magic = false →
      Leads bytes position magic
  | skip {position skippable size magic : Nat} : WordAt bytes position skippable →
      isSkippable skippable = true → WordAt bytes (position + 4) size →
      position + 8 + size < 2 ^ 64 → position + 8 + size ≤ bytes.length →
      Leads bytes (position + 8 + size) magic → Leads bytes position magic

variable {bytes : Bytes} {position magic magic' : Nat}

theorem WordAt.unique {word word' : Nat} (h : WordAt bytes position word)
    (h' : WordAt bytes position word') : word = word' := h.2.2.trans h'.2.2.symm

theorem Leads.unique (h : Leads bytes position magic) (h' : Leads bytes position magic') :
    magic = magic' := by
  induction h with
  | here hword hdata =>
      cases h' with
      | here hword' _ => exact hword.unique hword'
      | skip hword' hskippable =>
          obtain rfl := hword.unique hword'
          rw [hdata] at hskippable
          exact absurd hskippable (by decide)
  | skip hword hskippable hsize _ _ _ ih =>
      cases h' with
      | here hword' hdata =>
          obtain rfl := hword.unique hword'
          rw [hdata] at hskippable
          exact absurd hskippable (by decide)
      | skip hword' _ hsize' _ _ hrest =>
          obtain rfl := hsize.unique hsize'
          exact ih hrest

/-! ### The parsers -/

/-- A word that a cursor reads is the word at its position. -/
theorem wordAt_of_readU32Le {cursor next : StreamCursor} {detail : String} {word : Nat}
    (h : (StreamCursor.readU32Le detail cursor).result = .ok (word, next)) :
    WordAt cursor.bytes cursor.position word ∧ cursor.Advanced next 4 := by
  obtain ⟨hholds, hword, hadvanced⟩ := readU32Le_eq_ok.mp h
  exact ⟨⟨hholds.1, hholds.2, hword⟩, hadvanced⟩

/-- A scan that counts a data frame has come to one that the format can read. -/
theorem FrameFormat.leads_of_parseFrom {σ π φ : Type} {F : FrameFormat σ π φ} {limits : Limits}
    {input : Bytes} {Readable : Nat → Prop}
    (hread : ∀ start index magic counters cursor out,
      (F.readFrame input start index magic counters cursor).result = .ok out → Readable magic)
    (fuel : Nat) : ∀ {totals totals' : FrameTotals σ φ} {cursor last : StreamCursor},
      (F.parseFrom limits input fuel totals cursor).result = .ok (totals', last) →
      totals'.dataFrames ≠ totals.dataFrames →
      ∃ magic, Leads cursor.bytes cursor.position magic ∧ Readable magic := by
  induction fuel with
  | zero =>
      intro totals totals' cursor last h _
      exact absurd h (StreamCursor.result_refuse _ _ _)
  | succ fuel ih =>
      intro totals totals' cursor last h hdata
      rw [parseFrom, Cursor.bind_eq_ok] at h
      obtain ⟨ahead, cursor', hahead, h⟩ := h
      obtain ⟨rfl, rfl⟩ := Prod.mk.inj (Except.ok.inj hahead)
      by_cases hend : cursor.ahead.isEmpty = true
      · rw [if_pos hend] at h
        obtain ⟨rfl, -⟩ := Cursor.pure_eq_ok.mp h
        exact absurd rfl hdata
      · rw [if_neg hend, Cursor.bind_eq_ok] at h
        obtain ⟨totalFrames, c₁, hcount, h⟩ := h
        obtain ⟨-, rfl⟩ := Cursor.lift_eq_ok.mp hcount
        rw [Cursor.bind_eq_ok] at h
        obtain ⟨_, c₂, hlimit, h⟩ := h
        obtain ⟨-, rfl⟩ := Cursor.lift_eq_ok.mp hlimit
        rw [Cursor.bind_eq_ok] at h
        obtain ⟨start, c₃, hstart, h⟩ := h
        obtain ⟨rfl, rfl⟩ := Prod.mk.inj (Except.ok.inj hstart)
        rw [Cursor.bind_eq_ok] at h
        obtain ⟨magic, c₄, hmagic, h⟩ := h
        obtain ⟨hword, hadvanced⟩ := wordAt_of_readU32Le hmagic
        by_cases hskippable : isSkippable magic = true
        · rw [if_pos hskippable, Cursor.bind_eq_ok] at h
          obtain ⟨size, c₅, hsize, h⟩ := h
          obtain ⟨hsizeWord, hadvanced'⟩ := wordAt_of_readU32Le hsize
          rw [Cursor.bind_eq_ok] at h
          obtain ⟨_, c₆, hskip, h⟩ := h
          obtain ⟨hholds, hskipped⟩ := skipU64_eq_ok.mp hskip
          rw [Cursor.bind_eq_ok] at h
          obtain ⟨skippableFrames, c₇, hskipCount, h⟩ := h
          obtain ⟨-, rfl⟩ := Cursor.lift_eq_ok.mp hskipCount
          obtain ⟨magic', hleads, hreadable⟩ := ih h hdata
          have hall := (hadvanced.trans hadvanced').trans hskipped
          rw [hall.1, hall.2.2] at hleads
          rw [hadvanced.1, hadvanced.2.2] at hsizeWord
          rw [Holds, (hadvanced.trans hadvanced').1, (hadvanced.trans hadvanced').2.2] at hholds
          refine ⟨magic', .skip hword hskippable hsizeWord hholds.1 hholds.2 ?_, hreadable⟩
          rwa [Nat.add_assoc]
        · rw [if_neg hskippable, Cursor.bind_eq_ok] at h
          obtain ⟨out, c₅, hframe, -⟩ := h
          exact ⟨magic, .here hword (by simpa using hskippable), hread _ _ _ _ _ _ hframe⟩

/-- A file that parses leads to a frame its format can read. -/
theorem FrameFormat.leads_of_parseTotals {σ π φ : Type} {F : FrameFormat σ π φ} {none : σ}
    {limits : Limits} {totals : FrameTotals σ φ} {Readable : Nat → Prop}
    (hread : ∀ start index magic counters cursor out,
      (F.readFrame bytes start index magic counters cursor).result = .ok out → Readable magic)
    (h : (F.parseTotals none limits bytes).result = .ok totals) :
    ∃ magic, Leads bytes 0 magic ∧ Readable magic := by
  rw [parseTotals, Metered.bind_eq_ok] at h
  obtain ⟨⟨totals', last⟩, hscan, h⟩ := h
  obtain ⟨hdata, -⟩ := refuseStream_eq_ok.mp h
  exact leads_of_parseFrom hread _ hscan hdata

/-- The formats that tell frames apart by a magic, and the magics of their data frames. -/
def StreamFormat.Reads : StreamFormat → Nat → Prop
  | .lz4, magic => magic = lz4Magic ∨ magic = lz4LegacyMagic
  | .zstandard, magic => magic = zstandardMagic
  | .unixCompress, _ => False

theorem lz4_leads {xxHash32 : Bytes → Nat} {limits : Limits}
    {out : Lz4.Lz4StreamInfo × Option Nat × List Lz4.Lz4Frame}
    (h : (Lz4.parse xxHash32 bytes limits).result = .ok out) :
    ∃ magic, Leads bytes 0 magic ∧ StreamFormat.lz4.Reads magic := by
  rw [Lz4.parse, Metered.bind_eq_ok] at h
  obtain ⟨totals, htotals, -⟩ := h
  refine FrameFormat.leads_of_parseTotals (fun start index magic counters cursor out hframe => ?_)
    htotals
  by_cases hstandard : magic = lz4Magic
  · exact Or.inl hstandard
  · by_cases hlegacy : magic = lz4LegacyMagic
    · exact Or.inr hlegacy
    · have hframe : (Lz4.readFrame xxHash32 bytes start index magic counters cursor).result
          = .ok out := hframe
      rw [Lz4.readFrame, if_neg hstandard, if_neg hlegacy] at hframe
      exact absurd (Cursor.lift_eq_ok.mp hframe).1 (by simp)

theorem zstandard_leads {limits : Limits}
    {out : Zstandard.ZstandardStreamInfo × Option Nat × List Zstandard.ZstandardFrame}
    (h : (Zstandard.parse bytes limits).result = .ok out) :
    ∃ magic, Leads bytes 0 magic ∧ StreamFormat.zstandard.Reads magic := by
  rw [Zstandard.parse, Metered.bind_eq_ok] at h
  obtain ⟨totals, htotals, -⟩ := h
  refine FrameFormat.leads_of_parseTotals (fun start index magic counters cursor out hframe => ?_)
    htotals
  by_contra hother
  have hframe : (Zstandard.readFrame limits magic counters cursor).result = .ok out := hframe
  have hother : magic ≠ zstandardMagic := hother
  rw [Zstandard.readFrame, if_pos hother] at hframe
  exact absurd (Cursor.lift_eq_ok.mp hframe).1 (by simp)

/-! ### Detection -/

theorem result_orStream_bind {α β : Type} {value : Option α} {format detail : String} {a : α}
    {f : α → Work β} (h : value = some a) :
    (orStreamFormat value format detail >>= f).result = (f a).result :=
  Metered.result_bind_ok (orStreamFormat_eq_ok.mpr h)

theorem WordAt.slice {word : Nat} (h : WordAt bytes position word) :
    checkedAdd 64 position 4 = some (position + 4) ∧
      Lz4.sliceBetween bytes position (position + 4) = some ((bytes.drop position).take 4) := by
  refine ⟨checkedAdd_of_lt h.1, ?_⟩
  rw [Lz4.sliceBetween, if_pos ⟨Nat.le_add_right _ _, h.2.1⟩, Nat.add_sub_cancel_left]

/-- A skippable magic is none of the others. -/
theorem isSkippable_ne {skippable : Nat} (h : isSkippable skippable = true) :
    ¬ (skippable = lz4Magic ∨ skippable = lz4LegacyMagic) ∧ skippable ≠ zstandardMagic := by
  refine ⟨?_, ?_⟩
  · rintro (rfl | rfl) <;> exact absurd h (by decide)
  · rintro rfl
    exact absurd h (by decide)

/-- **The walk of `detect_format`** comes to the magic the input leads to. -/
theorem detectFrom_result {format : StreamFormat} (h : Leads bytes position magic)
    (hreads : format.Reads magic) : ∀ {fuel : Nat}, bytes.length - position < fuel →
      (detectFrom bytes fuel position).result = .ok format := by
  induction h with
  | @here position magic hword hdata =>
      intro fuel hfuel
      obtain ⟨fuel, rfl⟩ := Nat.exists_eq_succ_of_ne_zero (Nat.ne_of_gt (Nat.zero_lt_of_lt hfuel))
      obtain ⟨hend, hslice⟩ := hword.slice
      rw [detectFrom, result_orStream_bind hend, result_orStream_bind hslice, ← hword.2.2]
      cases format with
      | lz4 =>
          have hreads : magic = lz4Magic ∨ magic = lz4LegacyMagic := hreads
          rw [if_pos hreads]
          rfl
      | zstandard =>
          obtain rfl : magic = zstandardMagic := hreads
          rfl
      | unixCompress => exact absurd hreads id
  | @skip position skippable size magic hword hskippable hsize hlt hle _ ih =>
      intro fuel hfuel
      obtain ⟨fuel, rfl⟩ := Nat.exists_eq_succ_of_ne_zero (Nat.ne_of_gt (Nat.zero_lt_of_lt hfuel))
      obtain ⟨hend, hslice⟩ := hword.slice
      obtain ⟨hsizeEnd, hsizeSlice⟩ := hsize.slice
      obtain ⟨hlz4, hzstandard⟩ := isSkippable_ne hskippable
      have hskip : checkedAdd 64 (position + 4 + 4) (leValue ((bytes.drop (position + 4)).take 4))
          = some (position + 8 + size) := by
        rw [← hsize.2.2, Nat.add_assoc position 4 4]
        exact checkedAdd_of_lt hlt
      rw [detectFrom, result_orStream_bind hend, result_orStream_bind hslice, ← hword.2.2,
        if_neg hlz4, if_neg hzstandard, if_pos hskippable, result_orStream_bind hsizeEnd,
        result_orStream_bind hsizeSlice, result_orStream_bind hskip, if_neg (by omega)]
      exact ih hreads (by omega)

/-- The two bytes of `compress` begin no magic of a frame. -/
theorem not_leads_of_unixCompress (h : bytes.take 2 = UnixCompress.unixCompressMagic)
    {format : StreamFormat} (hleads : Leads bytes 0 magic) : ¬ format.Reads magic := by
  have hlow : ∀ word, WordAt bytes 0 word → word % 2 ^ 16 = 0x9d1f := by
    rintro word ⟨-, hle, rfl⟩
    rcases bytes with _ | ⟨first, _ | ⟨second, rest⟩⟩
    · exact absurd hle (by simp)
    · exact absurd hle (by simp)
    obtain ⟨rfl, rfl⟩ : first = 0x1f ∧ second = 0x9d := by
      simpa [UnixCompress.unixCompressMagic] using h
    show (31 + 256 * (157 + 256 * leValue (rest.take 2))) % 2 ^ 16 = 0x9d1f
    omega
  intro hreads
  cases hleads with
  | here hword _ =>
      have hmod := hlow _ hword
      cases format with
      | lz4 => rcases hreads with rfl | rfl <;> exact absurd hmod (by decide)
      | zstandard =>
          obtain rfl : magic = zstandardMagic := hreads
          exact absurd hmod (by decide)
      | unixCompress => exact hreads
  | skip hword hskippable _ _ _ _ =>
      have hmod := hlow _ hword
      rw [isSkippable, Bool.and_eq_true, decide_eq_true_eq, decide_eq_true_eq, skippableMagicStart,
        skippableMagicEnd] at hskippable
      omega

namespace CompressedStream

variable {xxHash32 : Bytes → Nat} {limits : Limits} {format : StreamFormat}

theorem unixCompress_magic {out : UnixCompress.UnixCompressStreamInfo × UnixCompress.UnixCompressLayout}
    (h : (UnixCompress.parse bytes limits).result = .ok out) :
    2 ≤ bytes.length ∧ bytes.take 2 = UnixCompress.unixCompressMagic := by
  unfold UnixCompress.parse at h
  by_cases hshort : bytes.length < UnixCompress.headerBytes
  · rw [if_pos hshort] at h
    exact absurd h (by simp [UnixCompress.refuse])
  · rw [if_neg hshort] at h
    have hlong : 3 ≤ bytes.length := Nat.not_lt.mp hshort
    by_cases hmagic : (bytes.take UnixCompress.headerBytes).take 2 ≠ UnixCompress.unixCompressMagic
    · rw [if_pos hmagic] at h
      exact absurd h (by simp [UnixCompress.refuse])
    · rw [List.take_take] at hmagic
      exact ⟨by omega, not_not.mp hmagic⟩

/-- What a stream of this format starts with. -/
def Starts (bytes : Bytes) (format : StreamFormat) : Prop :=
  (∃ magic, Leads bytes 0 magic ∧ format.Reads magic) ∨
    format = .unixCompress ∧ 2 ≤ bytes.length ∧ bytes.take 2 = UnixCompress.unixCompressMagic

theorem parseAs_starts {out : StreamInfoKind × Option Nat × StreamLayout}
    (h : (parseAs xxHash32 bytes limits format).result = .ok out) : Starts bytes format := by
  cases format with
  | lz4 =>
      obtain ⟨parsed, hparsed, -⟩ := Metered.bind_eq_ok.mp h
      exact Or.inl (lz4_leads hparsed)
  | zstandard =>
      obtain ⟨parsed, hparsed, -⟩ := Metered.bind_eq_ok.mp h
      exact Or.inl (zstandard_leads hparsed)
  | unixCompress =>
      obtain ⟨parsed, hparsed, -⟩ := Metered.bind_eq_ok.mp h
      exact Or.inr ⟨rfl, unixCompress_magic hparsed⟩

/-- No input starts as two formats. -/
theorem Starts.unique {format' : StreamFormat} (h : Starts bytes format)
    (h' : Starts bytes format') : format = format' := by
  rcases h with ⟨magic, hleads, hreads⟩ | ⟨rfl, -, hmagic⟩
  · rcases h' with ⟨magic', hleads', hreads'⟩ | ⟨rfl, -, hmagic'⟩
    · obtain rfl := hleads.unique hleads'
      cases format <;> cases format' <;>
        simp_all [StreamFormat.Reads, lz4Magic, lz4LegacyMagic, zstandardMagic]
    · exact absurd hreads (not_leads_of_unixCompress hmagic' hleads)
  · rcases h' with ⟨magic', hleads', hreads'⟩ | ⟨rfl, -, -⟩
    · exact absurd hreads' (not_leads_of_unixCompress hmagic hleads')
    · rfl

/-- **Detection** finds the format an input starts as. -/
theorem detectFormat_result (h : Starts bytes format) :
    (detectFormat bytes).result = .ok format := by
  unfold detectFormat
  rcases h with ⟨magic, hleads, hreads⟩ | ⟨rfl, hmagic⟩
  · have hnot : ¬ (2 ≤ bytes.length ∧ bytes.take 2 = UnixCompress.unixCompressMagic) :=
      fun hmagic => not_leads_of_unixCompress hmagic.2 hleads hreads
    rw [if_neg hnot]
    exact detectFrom_result hleads hreads (by omega)
  · rw [if_pos hmagic]
    rfl

theorem trace_detectFrom (fuel : Nat) : ∀ position, (detectFrom bytes fuel position).trace = [] := by
  induction fuel with
  | zero => exact fun _ => rfl
  | succ fuel ih =>
      intro position
      refine Metered.trace_bind_of_free (trace_orStreamFormat _ _ _) fun magicEnd => ?_
      refine Metered.trace_bind_of_free (trace_orStreamFormat _ _ _) fun magicBytes => ?_
      dsimp only
      split
      · rfl
      split
      · rfl
      split
      · refine Metered.trace_bind_of_free (trace_orStreamFormat _ _ _) fun sizeEnd => ?_
        refine Metered.trace_bind_of_free (trace_orStreamFormat _ _ _) fun sizeBytes => ?_
        refine Metered.trace_bind_of_free (trace_orStreamFormat _ _ _) fun position => ?_
        split
        · rfl
        · exact ih position
      · rfl

theorem trace_detectFormat : (detectFormat bytes).trace = [] := by
  unfold detectFormat
  split
  · rfl
  · exact trace_detectFrom _ _

/-- Opening succeeds as a format the input starts as. -/
theorem openBytesAs_starts {stream : CompressedStream}
    (h : (openBytesAs xxHash32 bytes format limits).result = .ok stream) :
    Starts bytes format ∧ stream.info.format = format := by
  simp only [openBytesAs, openBytesInner, openFormat, Metered.bind_eq_ok, Prod.exists] at h
  obtain ⟨_, -, _, -, format', hformat, kind, size, layout, hparse, _, -, h⟩ := h
  obtain rfl := Except.ok.inj hformat
  obtain rfl := Except.ok.inj h
  exact ⟨parseAs_starts hparse, rfl⟩

/--
**Detection is complete and unambiguous**, under every control.

When opening the input as one format succeeds, opening it with detection is the same
computation and so comes to the same stream, of that format; and opening it as any other
format fails.
-/
theorem openBytes_detects {stream : CompressedStream} {control after : ParseControl}
    (h : (openBytesAs xxHash32 bytes format limits).run control = (.ok stream, after)) :
    stream.info.format = format ∧
      (openBytes xxHash32 bytes limits).run control = (.ok stream, after) ∧
      ∀ format', format' ≠ format → ∃ error after',
        (openBytesAs xxHash32 bytes format' limits).run control = (.error error, after') := by
  obtain ⟨hstarts, hformat⟩ := openBytesAs_starts (Metered.result_of_run_ok h).1
  have hdetects : detectFormat bytes = pure format :=
    Metered.eq_pure_of_free trace_detectFormat (detectFormat_result hstarts)
  have hsame : openBytes xxHash32 bytes limits = openBytesAs xxHash32 bytes format limits := by
    rw [openBytes, openBytesAs, openBytesInner, openBytesInner, hdetects]
  refine ⟨hformat, by rw [hsame, h], fun format' hne => ?_⟩
  rcases hrun : (openBytesAs xxHash32 bytes format' limits).run control with ⟨error | other, after'⟩
  · exact ⟨error, after', rfl⟩
  · have hstarts' := (openBytesAs_starts (Metered.result_of_run_ok hrun).1).1
    exact absurd (hstarts'.unique hstarts) hne

/-- A skippable frame of one byte, and an empty Zstandard frame. -/
def skippedFrame : Bytes :=
  [0x50, 0x2a, 0x4d, 0x18, 1, 0, 0, 0, 7, 0x28, 0xb5, 0x2f, 0xfd, 0x20, 0, 1, 0, 0]

theorem openBytes_detects_skippedFrame :
    ∃ stream after, (openBytes (fun _ => 0) skippedFrame {}).run (.uncancelled .unlimited)
        = (.ok stream, after) ∧ stream.info.format = .zstandard := by
  have hopens : ((openBytesAs (fun _ => 0) skippedFrame .zstandard {}).run
      (.uncancelled .unlimited)).1.toOption.isSome = true := by decide +kernel
  rcases hopen : (openBytesAs (fun _ => 0) skippedFrame .zstandard {}).run
    (.uncancelled .unlimited) with ⟨error | stream, after⟩
  · rw [hopen] at hopens
    exact absurd hopens (by simp [Except.toOption])
  · obtain ⟨hformat, hdetected, -⟩ := openBytes_detects hopen
    exact ⟨stream, after, hdetected, hformat⟩

end CompressedStream

end Un7z
