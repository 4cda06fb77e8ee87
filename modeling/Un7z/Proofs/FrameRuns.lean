/-
A file of frames inside a longer one.

A frame is read from its first byte to its last, and what it is does not depend on what lies
before it or behind it: a cursor in the file and one at the same place of the longer file
read the same (`Inside`).  Only a legacy frame looks further, for the magic of a frame
behind it.  So the loop over the frames of a file does what it does on the file alone when
it comes to it with what it has counted before: `Uniform.parseFrom` follows the two loops
side by side, and says where the frames lie.
-/
import Un7z.Lib.Mirror
import Un7z.Proofs.StreamDetection

namespace Un7z

open StreamCursor

/-! ### A cursor in a longer input -/

/-- The same place of an input and of a longer one, not before `floor`. -/
structure Inside (before input behind : Bytes) (floor : Nat) (cursor outer : StreamCursor) :
    Prop where
  own : cursor.bytes = input
  bytes : outer.bytes = before ++ (input ++ behind)
  position : outer.position = before.length + cursor.position
  floor : floor ≤ cursor.position
  small : outer.bytes.length < 2 ^ 64

namespace Inside

variable {before input behind : Bytes} {floor : Nat} {cursor outer next : StreamCursor}

theorem length_eq (h : Inside before input behind floor cursor outer) :
    outer.bytes.length = before.length + (input.length + behind.length) := by
  rw [h.bytes, List.length_append, List.length_append]

theorem position_le (h : Inside before input behind floor cursor outer) :
    cursor.position ≤ input.length := by
  rw [← h.own]
  exact cursor.position_le

/-- What lies ahead is what lies ahead in the shorter input, and what is behind it. -/
theorem ahead (h : Inside before input behind floor cursor outer) :
    outer.ahead = cursor.ahead ++ behind := by
  have hle := h.position_le
  rw [StreamCursor.ahead, StreamCursor.ahead, h.bytes, h.position, h.own, List.drop_append,
    List.drop_eq_nil_of_le (Nat.le_add_right _ _), Nat.add_sub_cancel_left, List.nil_append,
    List.drop_append_of_le_length hle]

theorem goes_on (h : Inside before input behind floor cursor outer)
    (hahead : ¬ cursor.ahead.isEmpty = true) : ¬ outer.ahead.isEmpty = true := by
  rw [List.isEmpty_iff] at hahead ⊢
  rw [h.ahead, List.append_eq_nil_iff]
  exact fun hnil => hahead hnil.1

theorem mono {floor' : Nat} (h : Inside before input behind floor cursor outer)
    (hle : floor' ≤ cursor.position) : Inside before input behind floor' cursor outer :=
  ⟨h.own, h.bytes, h.position, hle, h.small⟩

/-- Both cursors move on. -/
theorem advance {length : Nat} (h : Inside before input behind floor cursor outer)
    (hholds : cursor.Holds length) (hadvanced : cursor.Advanced next length) :
    outer.Holds length ∧ ∃ next', outer.Advanced next' length ∧
      Inside before input behind floor next next' := by
  have hlength := h.length_eq
  have hsmall := h.small
  have hposition := h.position
  have hfits := hholds.2
  rw [h.own] at hfits
  have hroom : outer.Holds length := ⟨by omega, by omega⟩
  obtain ⟨next', hnext⟩ := exists_advanced hroom
  have hfloor := h.floor
  refine ⟨hroom, next', hnext, hadvanced.1.trans h.own, hnext.1.trans h.bytes, ?_, ?_, ?_⟩
  · rw [hnext.2.2, hadvanced.2.2, hposition, Nat.add_assoc]
  · rw [hadvanced.2.2]
    omega
  · rw [hnext.1]
    exact hsmall

theorem take_ahead {length : Nat} (h : Inside before input behind floor cursor outer)
    (hholds : cursor.Holds length) : outer.ahead.take length = cursor.ahead.take length := by
  rw [h.ahead, List.take_append_of_le_length]
  rw [length_ahead]
  have hfits := hholds.2
  omega

end Inside

section reads

variable {before input behind : Bytes} {floor : Nat}

theorem mirrored_readBytes (length : Nat) (detail : String) :
    Mirrored (Inside before input behind floor) Eq (StreamCursor.readBytes length detail)
      (StreamCursor.readBytes length detail) := by
  rintro cursor outer h ⟨bytes, next⟩ hread
  obtain ⟨hholds, hbytes, hadvanced⟩ := StreamCursor.readBytes_eq_ok.mp hread
  obtain ⟨hroom, next', hnext, hinside⟩ := h.advance hholds hadvanced
  have hbytes' := hbytes.trans (h.take_ahead hholds).symm
  exact ⟨(bytes, next'), StreamCursor.readBytes_eq_ok.mpr ⟨hroom, hbytes', hnext⟩, rfl, hinside⟩

theorem mirrored_refuse {α : Type} {P : α → α → Prop} (detail : String) :
    Mirrored (Inside before input behind floor) P (refuse detail) (refuse detail) :=
  Mirrored.of_error fun cursor => ⟨_, result_streamFormatErr cursor.format detail⟩

theorem mirrored_skipU64 (length : Nat) (detail : String) :
    Mirrored (Inside before input behind floor) Eq (skipU64 length detail) (skipU64 length detail) :=
  (mirrored_readBytes length detail).bind_eq fun _ => Mirrored.pure rfl

theorem mirrored_readU8 (detail : String) :
    Mirrored (Inside before input behind floor) Eq (StreamCursor.readU8 detail)
      (StreamCursor.readU8 detail) := by
  refine (mirrored_readBytes 1 detail).bind_eq fun bytes => ?_
  cases bytes.head? with
  | none => exact mirrored_refuse detail
  | some byte => exact Mirrored.pure rfl

theorem mirrored_readU24Le (detail : String) :
    Mirrored (Inside before input behind floor) Eq (readU24Le detail) (readU24Le detail) :=
  (mirrored_readBytes 3 detail).bind_eq fun _ =>
    Mirrored.ite (fun _ => Mirrored.pure rfl) fun _ => mirrored_refuse detail

theorem mirrored_readU32Le (detail : String) :
    Mirrored (Inside before input behind floor) Eq (StreamCursor.readU32Le detail)
      (StreamCursor.readU32Le detail) :=
  (mirrored_readBytes 4 detail).bind_eq fun _ =>
    Mirrored.ite (fun _ => Mirrored.pure rfl) fun _ => mirrored_refuse detail

theorem mirrored_readLe (length : Nat) (detail : String) :
    Mirrored (Inside before input behind floor) Eq (readLe length detail) (readLe length detail) :=
  (mirrored_readBytes length detail).bind_eq fun _ =>
    Mirrored.ite (fun _ => Mirrored.pure rfl) fun _ => mirrored_refuse _

theorem mirrored_passU32If (present : Bool) (detail : String) :
    Mirrored (Inside before input behind floor) Eq (passU32If present detail)
      (passU32If present detail) :=
  Mirrored.ite (fun _ => (mirrored_readU32Le detail).bind_eq fun _ => Mirrored.pure rfl)
    fun _ => Mirrored.pure rfl

/-- The remaining bytes go on behind the input. -/
theorem mirrored_remaining : Mirrored (Inside before input behind floor)
    (fun ahead ahead' => ahead' = ahead ++ behind) remaining remaining := by
  intro cursor outer h
  exact Metered.Mirrors.pure ⟨h.ahead, h⟩

theorem mirrored_currentPosition : Mirrored (Inside before input behind floor)
    (fun position position' => position' = before.length + position) currentPosition
    currentPosition := by
  intro cursor outer h
  exact Metered.Mirrors.pure ⟨h.position, h⟩

end reads

/-! ### One round of the loop -/

theorem countOne_eq_ok {format detail : String} {count count' : Nat} :
    (countOne format detail count).result = .ok count' ↔ count + 1 < 2 ^ 64 ∧ count' = count + 1 := by
  rw [countOne, orStreamFormat_eq_ok, checkedAdd_eq_some]

namespace FrameFormat

variable {σ π φ : Type} (F : FrameFormat σ π φ)

/-- The totals behind a skippable frame. -/
def skipped (totals : FrameTotals σ φ) : FrameTotals σ φ :=
  { totals with
    totalFrames := totals.totalFrames + 1
    skippableFrames := totals.skippableFrames + 1 }

/-- The totals behind a data frame. -/
def taken (totals : FrameTotals σ φ) (counters : σ) (aggregateSize : Option Nat) (start stop : Nat)
    (parsed : π) : FrameTotals σ φ where
  totalFrames := totals.totalFrames + 1
  dataFrames := totals.dataFrames + 1
  skippableFrames := totals.skippableFrames
  counters
  maximumBytes := max totals.maximumBytes (F.maximumBytes parsed)
  aggregateSize
  frames := totals.frames ++ [F.record start stop parsed]

/-- The loop goes on behind a skippable frame. -/
def Skips (limits : Limits) (input : Bytes) (fuel : Nat) (totals : FrameTotals σ φ)
    (cursor : StreamCursor) (out : FrameTotals σ φ × StreamCursor) : Prop :=
  ∃ size sized next,
    (StreamCursor.readU32Le "skippable frame size is truncated" cursor).result = .ok (size, sized) ∧
    (skipU64 size "skippable frame payload is truncated" sized).result = .ok ((), next) ∧
    totals.skippableFrames + 1 < 2 ^ 64 ∧
    (F.parseFrom limits input fuel (skipped totals) next).result = .ok out

/-- The loop goes on behind a data frame. -/
def Takes (limits : Limits) (input : Bytes) (fuel : Nat) (totals : FrameTotals σ φ) (start magic : Nat)
    (cursor : StreamCursor) (out : FrameTotals σ φ × StreamCursor) : Prop :=
  ∃ counters parsed next counted size,
    (F.readFrame input start totals.dataFrames magic totals.counters cursor).result
      = .ok ((counters, parsed), next) ∧
    totals.dataFrames + 1 < 2 ^ 64 ∧ (F.count parsed counters).result = .ok counted ∧
    (F.addSize totals.aggregateSize (F.contentSize parsed)).result = .ok size ∧
    (F.parseFrom limits input fuel (F.taken totals counted size start next.position parsed) next).result
      = .ok out

variable {F} {limits : Limits} {input : Bytes} {fuel : Nat} {totals : FrameTotals σ φ}
  {cursor : StreamCursor} {out : FrameTotals σ φ × StreamCursor}

/-- What a round of the loop does. -/
theorem parseFrom_succ_eq_ok (hahead : ¬ cursor.ahead.isEmpty = true) :
    (F.parseFrom limits input (fuel + 1) totals cursor).result = .ok out ↔
      totals.totalFrames + 1 < 2 ^ 64 ∧ totals.totalFrames + 1 ≤ limits.maxStreamFrames ∧
      ∃ magic next, (StreamCursor.readU32Le "frame magic is truncated" cursor).result = .ok (magic, next) ∧
        if isSkippable magic then F.Skips limits input fuel totals next out
        else F.Takes limits input fuel totals cursor.position magic next out := by
  have hremaining : (remaining cursor).result = .ok (cursor.ahead, cursor) := rfl
  have hposition : (currentPosition cursor).result = .ok (cursor.position, cursor) := rfl
  rw [parseFrom, Cursor.result_bind_ok hremaining, if_neg hahead]
  constructor
  · intro h
    rw [Cursor.bind_eq_ok] at h
    obtain ⟨totalFrames, c, hcount, h⟩ := h
    obtain ⟨htotal, rfl⟩ := Cursor.lift_eq_ok.mp hcount
    obtain ⟨hlt, rfl⟩ := countOne_eq_ok.mp htotal
    rw [Cursor.bind_eq_ok] at h
    obtain ⟨_, c', hlimit, h⟩ := h
    obtain ⟨hcheck, rfl⟩ := Cursor.lift_eq_ok.mp hlimit
    rw [Cursor.result_bind_ok hposition] at h
    rw [Cursor.bind_eq_ok] at h
    obtain ⟨magic, next, hmagic, h⟩ := h
    refine ⟨hlt, checkLimit_eq_ok.mp hcheck, magic, next, hmagic, ?_⟩
    by_cases hskippable : isSkippable magic = true
    · rw [if_pos hskippable] at h ⊢
      rw [Cursor.bind_eq_ok] at h
      obtain ⟨size, sized, hsize, h⟩ := h
      rw [Cursor.bind_eq_ok] at h
      obtain ⟨_, skip, hskip, h⟩ := h
      rw [Cursor.bind_eq_ok] at h
      obtain ⟨skippableFrames, c'', hcount', h⟩ := h
      obtain ⟨hone, rfl⟩ := Cursor.lift_eq_ok.mp hcount'
      obtain ⟨hlt', rfl⟩ := countOne_eq_ok.mp hone
      exact ⟨size, sized, _, hsize, hskip, hlt', h⟩
    · rw [if_neg hskippable] at h ⊢
      rw [Cursor.bind_eq_ok] at h
      obtain ⟨⟨counters, parsed⟩, stop, hframe, h⟩ := h
      rw [Cursor.bind_eq_ok] at h
      obtain ⟨dataFrames, c'', hcount', h⟩ := h
      obtain ⟨hone, rfl⟩ := Cursor.lift_eq_ok.mp hcount'
      obtain ⟨hlt', rfl⟩ := countOne_eq_ok.mp hone
      rw [Cursor.bind_eq_ok] at h
      obtain ⟨counted, c₁, hcounted, h⟩ := h
      obtain ⟨hcounters, rfl⟩ := Cursor.lift_eq_ok.mp hcounted
      rw [Cursor.bind_eq_ok] at h
      obtain ⟨size, c₂, hsize, h⟩ := h
      obtain ⟨hadded, rfl⟩ := Cursor.lift_eq_ok.mp hsize
      exact ⟨counters, parsed, _, counted, size, hframe, hlt', hcounters, hadded, h⟩
  · rintro ⟨hlt, hlimit, magic, next, hmagic, h⟩
    have hcheck : (checkFrameCount (totals.totalFrames + 1) limits).result = .ok () :=
      checkLimit_of_le hlimit _
    rw [Cursor.result_lift_bind (countOne_eq_ok.mpr ⟨hlt, rfl⟩),
      Cursor.result_lift_bind hcheck, Cursor.result_bind_ok hposition,
      Cursor.result_bind_ok hmagic]
    by_cases hskippable : isSkippable magic = true
    · rw [if_pos hskippable] at h ⊢
      obtain ⟨size, sized, last, hsize, hskip, hlt', h⟩ := h
      rw [Cursor.result_bind_ok hsize, Cursor.result_bind_ok hskip,
        Cursor.result_lift_bind (countOne_eq_ok.mpr ⟨hlt', rfl⟩)]
      exact h
    · rw [if_neg hskippable] at h ⊢
      obtain ⟨counters, parsed, stop, counted, size, hframe, hlt', hcounted, hsize, h⟩ := h
      rw [Cursor.result_bind_ok hframe]
      dsimp only
      rw [Cursor.result_lift_bind (countOne_eq_ok.mpr ⟨hlt', rfl⟩), Cursor.result_lift_bind hcounted,
        Cursor.result_lift_bind hsize]
      exact h

end FrameFormat

/-! ### What is counted -/

variable {σ π φ : Type}

/-- What lies behind a file: nothing, or something that begins with the magic of a frame. -/
def Begins (starts : Nat → Prop) (behind : Bytes) : Prop :=
  behind = [] ∨ (4 ≤ behind.length ∧ starts (leValue (behind.take 4)))

/-- A format whose frames are read alike wherever they lie, and whose counters can be added. -/
structure Uniform (F : FrameFormat σ π φ) where
  none : σ
  add : σ → σ → σ
  /-- No counter is above a bound. -/
  fits : Nat → σ → Prop
  starts : Nat → Prop
  span : φ → Nat × Nat
  size : φ → Option Nat
  shift : Nat → φ → φ
  none_add : ∀ counters, add none counters = counters
  add_none : ∀ counters, add counters none = counters
  fits_none : fits 0 none
  fits_mono : ∀ {m n counters}, m ≤ n → fits m counters → fits n counters
  shift_zero : ∀ frame, shift 0 frame = frame
  shift_record : ∀ k start stop parsed,
    shift k (F.record start stop parsed) = F.record (k + start) (k + stop) parsed
  span_record : ∀ start stop parsed, span (F.record start stop parsed) = (start, stop)
  size_record : ∀ start stop parsed, size (F.record start stop parsed) = F.contentSize parsed
  starts_skippable : ∀ {magic}, isSkippable magic = true → starts magic
  starts_frame : ∀ {input start index magic counters cursor out},
    (F.readFrame input start index magic counters cursor).result = .ok out → starts magic
  mirrored : ∀ {before input behind : Bytes} {floor start index index' magic n : Nat}
    {base counters : σ}, Begins starts behind → start + 4 ≤ floor → before.length + start + 4 < 2 ^ 64 →
    n + 1 < 2 ^ 64 → fits n (add base counters) →
    Mirrored (Inside before input behind floor) (fun out out' => out' = (add base out.1, out.2) ∧
        ∀ counted, (F.count out.2 out.1).result = .ok counted →
          (F.count out.2 (add base out.1)).result = .ok (add base counted) ∧
            fits (n + 1) (add base counted))
      (F.readFrame input start index magic counters)
      (F.readFrame (before ++ (input ++ behind)) (before.length + start) index' magic
        (add base counters))

/-- The sum of two sizes, where both are known. -/
def joinSizes : Option Nat → Option Nat → Option Nat
  | some m, some n => some (m + n)
  | _, _ => none

/-- The ranges of data frames that, with the skippable frames between them, take the input from a
position to its end. -/
inductive Tiles (input : Bytes) : Nat → List (Nat × Nat) → Prop
  | done : Tiles input input.length []
  | skipped {position magic size : Nat} {ranges : List (Nat × Nat)} : WordAt input position magic →
      isSkippable magic = true → WordAt input (position + 4) size →
      Tiles input (position + 8 + size) ranges → Tiles input position ranges
  | data {position stop magic : Nat} {ranges : List (Nat × Nat)} : WordAt input position magic →
      ¬ isSkippable magic = true → position + 4 ≤ stop → Tiles input stop ranges →
      Tiles input position ((position, stop) :: ranges)

namespace FrameFormat

theorem addSize_join {F : FrameFormat σ π φ} {base total total' size : Option Nat}
    (h : (F.addSize total size).result = .ok total')
    (hbound : ∀ m n, base = some m → total' = some n → m + n < 2 ^ 64) :
    (F.addSize (joinSizes base total) size).result = .ok (joinSizes base total') := by
  cases total with
  | none =>
      obtain rfl := Except.ok.inj h
      cases base <;> rfl
  | some n =>
      cases size with
      | none =>
          obtain rfl := Except.ok.inj h
          cases base <;> rfl
      | some k =>
          obtain ⟨sum, hsum, hpure⟩ := Metered.bind_eq_ok.mp h
          obtain rfl := Except.ok.inj hpure
          obtain ⟨-, rfl⟩ := checkedAdd_eq_some.mp (orStreamFormat_eq_ok.mp hsum)
          cases base with
          | none => rfl
          | some m =>
              have hlt := hbound m (n + k) rfl rfl
              refine Metered.bind_eq_ok.mpr ⟨m + n + k, orStreamFormat_eq_ok.mpr
                (checkedAdd_of_lt (by omega)), ?_⟩
              rw [Nat.add_assoc]
              rfl

end FrameFormat

namespace Uniform

variable {F : FrameFormat σ π φ} (U : Uniform F)

/-- The totals of a file behind another one, which takes the first `k` bytes. -/
def join (k : Nat) (base totals : FrameTotals σ φ) : FrameTotals σ φ where
  totalFrames := base.totalFrames + totals.totalFrames
  dataFrames := base.dataFrames + totals.dataFrames
  skippableFrames := base.skippableFrames + totals.skippableFrames
  counters := U.add base.counters totals.counters
  maximumBytes := max base.maximumBytes totals.maximumBytes
  aggregateSize := joinSizes base.aggregateSize totals.aggregateSize
  frames := base.frames ++ totals.frames.map (U.shift k)

/-- The sum of the sizes that frames declare. -/
def declared (frames : List φ) : Nat := (frames.map fun frame => (U.size frame).getD 0).sum

/-- The counters are not above the bytes that were read. -/
structure Counted (totals : FrameTotals σ φ) (position : Nat) : Prop where
  total : totals.totalFrames ≤ position
  kinds : totals.dataFrames + totals.skippableFrames = totals.totalFrames
  records : totals.frames.length = totals.dataFrames
  counters : U.fits totals.totalFrames totals.counters

/-- A known size is what the frames declare. -/
def Sized (totals : FrameTotals σ φ) : Prop :=
  ∀ n, totals.aggregateSize = some n → n = U.declared totals.frames

/-- One round of the loop over a file and of the loop over a longer one. -/
structure Round (limits : Limits) (before input behind : Bytes) (base totals totals' : FrameTotals σ φ)
    (cursor outer cursor' outer' : StreamCursor) : Prop where
  inside : Inside before input behind 0 cursor' outer'
  advance : cursor.position + 4 ≤ cursor'.position
  total : totals'.totalFrames = totals.totalFrames + 1
  sized : U.Sized totals → U.Sized totals'
  tiles : ∀ ranges, Tiles input cursor'.position ranges → ∃ more,
    totals'.frames = totals.frames ++ more ∧ Tiles input cursor.position (more.map U.span ++ ranges)
  counted : U.Counted (U.join before.length base totals') outer'.position
  outer : base.totalFrames + totals'.totalFrames ≤ limits.maxStreamFrames →
    (∀ m n, base.aggregateSize = some m → totals'.aggregateSize = some n → m + n < 2 ^ 64) →
    ∀ fuel out, (F.parseFrom limits (before ++ (input ++ behind)) fuel
        (U.join before.length base totals') outer').result = .ok out →
      (F.parseFrom limits (before ++ (input ++ behind)) (fuel + 1)
        (U.join before.length base totals) outer).result = .ok out

end Uniform

namespace Uniform

variable {F : FrameFormat σ π φ} {U : Uniform F} {limits : Limits} {before input behind : Bytes}
  {base totals totals' : FrameTotals σ φ} {cursor outer next : StreamCursor}

theorem declared_append (left right : List φ) :
    U.declared (left ++ right) = U.declared left + U.declared right := by
  rw [declared, List.map_append, List.sum_append]
  rfl

/-- One more frame is counted. -/
theorem Counted.more {position position' : Nat} (h : U.Counted totals position)
    (hposition : position + 4 ≤ position') (htotal : totals'.totalFrames = totals.totalFrames + 1)
    (hkinds : totals'.dataFrames + totals'.skippableFrames
      = totals.dataFrames + totals.skippableFrames + 1)
    (hrecords : totals'.frames.length = totals'.dataFrames)
    (hcounters : U.fits (totals.totalFrames + 1) totals'.counters) : U.Counted totals' position' := by
  have hle := h.total
  have hkinds' := h.kinds
  refine ⟨by omega, by omega, hrecords, ?_⟩
  rw [htotal]
  exact hcounters

/-- Both cursors read a word. -/
theorem readU32Le_outer {word : Nat} {detail : String} (h : Inside before input behind 0 cursor outer)
    (hread : (StreamCursor.readU32Le detail cursor).result = .ok (word, next)) :
    ∃ next', (StreamCursor.readU32Le detail outer).result = .ok (word, next') ∧
      Inside before input behind 0 next next' ∧ WordAt input cursor.position word ∧
      next.position = cursor.position + 4 := by
  obtain ⟨⟨word', next'⟩, hread', rfl, hinside⟩ := mirrored_readU32Le detail cursor outer h _ hread
  obtain ⟨hword, hadvanced⟩ := wordAt_of_readU32Le hread
  rw [h.own] at hword
  exact ⟨next', hread', hinside, hword, hadvanced.2.2⟩

/-- A round over a skippable frame. -/
theorem round_skipped {fuel magic : Nat} {out : FrameTotals σ φ × StreamCursor}
    (h : Inside before input behind 0 cursor outer) (hahead : ¬ cursor.ahead.isEmpty = true)
    (hcounted : U.Counted (U.join before.length base totals) outer.position)
    (hmagic : (StreamCursor.readU32Le "frame magic is truncated" cursor).result = .ok (magic, next))
    (hskippable : isSkippable magic = true) (hrun : F.Skips limits input fuel totals next out) :
    ∃ totals₁ cursor₁ outer₁,
      U.Round limits before input behind base totals totals₁ cursor outer cursor₁ outer₁ ∧
      (F.parseFrom limits input fuel totals₁ cursor₁).result = .ok out := by
  obtain ⟨size, sized, last, hsize, hskip, hlt, hrun⟩ := hrun
  obtain ⟨next', hmagic', hinside, hword, hposition⟩ := readU32Le_outer h hmagic
  obtain ⟨sized', hsize', hinside', hsizeWord, hposition'⟩ := readU32Le_outer hinside hsize
  obtain ⟨⟨_, last'⟩, hskip', _, hinside''⟩ := mirrored_skipU64 size _ sized sized' hinside' _ hskip
  replace hinside'' : Inside before input behind 0 last last' := hinside''
  have hlast : last.position = sized.position + size := (skipU64_eq_ok.mp hskip).2.2.2
  have hstart := h.position
  have hstop := hinside''.position
  have hle := last'.position_le
  have hsmall := hinside''.small
  have htotal := hcounted.total
  have hkinds : base.dataFrames + totals.dataFrames + (base.skippableFrames + totals.skippableFrames)
      = base.totalFrames + totals.totalFrames := hcounted.kinds
  have hlt' : base.totalFrames + totals.totalFrames ≤ before.length + cursor.position :=
    hstart ▸ htotal
  rw [hposition] at hsizeWord
  refine ⟨FrameFormat.skipped totals, last, last', ⟨hinside'', by omega, rfl, id, fun ranges hranges => ?_,
    hcounted.more (by omega) rfl rfl hcounted.records
      (U.fits_mono (Nat.le_succ _) hcounted.counters), fun hlimit _ fuel out hout => ?_⟩, hrun⟩
  · refine ⟨[], (List.append_nil _).symm, .skipped hword hskippable hsizeWord ?_⟩
    rw [show cursor.position + 8 + size = last.position by omega]
    exact hranges
  · refine (FrameFormat.parseFrom_succ_eq_ok (h.goes_on hahead)).mpr ⟨?_, hlimit, magic, next', hmagic', ?_⟩
    · show base.totalFrames + totals.totalFrames + 1 < 2 ^ 64
      omega
    · rw [if_pos hskippable]
      refine ⟨size, sized', last', hsize', hskip', ?_, hout⟩
      show base.skippableFrames + totals.skippableFrames + 1 < 2 ^ 64
      omega

/-- A data frame is counted behind other ones. -/
theorem join_taken (k start stop : Nat) (counters : σ) (size : Option Nat) (parsed : π) :
    U.join k base (F.taken totals counters size start stop parsed)
      = F.taken (U.join k base totals) (U.add base.counters counters) (joinSizes base.aggregateSize size)
          (k + start) (k + stop) parsed := by
  have hframes : base.frames ++ (totals.frames ++ [F.record start stop parsed]).map (U.shift k)
      = (base.frames ++ totals.frames.map (U.shift k)) ++ [F.record (k + start) (k + stop) parsed] := by
    rw [List.map_append, List.append_assoc, List.map_singleton, U.shift_record]
  have hmaximum : max base.maximumBytes (max totals.maximumBytes (F.maximumBytes parsed))
      = max (max base.maximumBytes totals.maximumBytes) (F.maximumBytes parsed) :=
    (Nat.max_assoc _ _ _).symm
  rw [join, FrameFormat.taken, FrameFormat.taken, join]
  dsimp only
  rw [hframes, hmaximum]
  rfl

/-- A known size is kept. -/
theorem sized_taken {size : Option Nat} {start stop : Nat} {counters : σ} {parsed : π}
    (h : U.Sized totals)
    (hsize : (F.addSize totals.aggregateSize (F.contentSize parsed)).result = .ok size) :
    U.Sized (F.taken totals counters size start stop parsed) := by
  intro n hn
  obtain rfl : size = some n := hn
  show n = U.declared (totals.frames ++ [F.record start stop parsed])
  cases htotal : totals.aggregateSize with
  | none =>
      rw [htotal] at hsize
      cases hsize
  | some total =>
      cases hcontent : F.contentSize parsed with
      | none =>
          rw [htotal, hcontent] at hsize
          cases hsize
      | some content =>
          rw [htotal, hcontent] at hsize
          obtain ⟨sum, hsum, hpure⟩ := Metered.bind_eq_ok.mp hsize
          obtain rfl : sum = n := Option.some.inj (Except.ok.inj hpure)
          obtain ⟨-, rfl⟩ := checkedAdd_eq_some.mp (orStreamFormat_eq_ok.mp hsum)
          have hone : U.declared [F.record start stop parsed] = content := by
            rw [declared, List.map_singleton, List.sum_singleton, U.size_record, hcontent]
            rfl
          rw [declared_append, ← h total htotal, hone]

/-- A round over a data frame. -/
theorem round_taken {fuel magic : Nat} {out : FrameTotals σ φ × StreamCursor}
    (hbegins : Begins U.starts behind) (h : Inside before input behind 0 cursor outer)
    (hahead : ¬ cursor.ahead.isEmpty = true)
    (hcounted : U.Counted (U.join before.length base totals) outer.position)
    (hmagic : (StreamCursor.readU32Le "frame magic is truncated" cursor).result = .ok (magic, next))
    (hskippable : ¬ isSkippable magic = true)
    (hrun : F.Takes limits input fuel totals cursor.position magic next out) :
    ∃ totals₁ cursor₁ outer₁,
      U.Round limits before input behind base totals totals₁ cursor outer cursor₁ outer₁ ∧
      (F.parseFrom limits input fuel totals₁ cursor₁).result = .ok out := by
  obtain ⟨counters, parsed, last, counted, size, hframe, hlt, hcount, hsize, hrun⟩ := hrun
  obtain ⟨next', hmagic', hinside, hword, hposition⟩ := readU32Le_outer h hmagic
  have hstart := h.position
  have hplace := hinside.position
  have hle := next'.position_le
  have hsmall := hinside.small
  have htotal : base.totalFrames + totals.totalFrames ≤ outer.position := hcounted.total
  have hkinds : base.dataFrames + totals.dataFrames + (base.skippableFrames + totals.skippableFrames)
      = base.totalFrames + totals.totalFrames := hcounted.kinds
  obtain ⟨⟨out', last'⟩, hframe', ⟨rfl, hcounters⟩, hinside'⟩ := @U.mirrored before input behind
    (cursor.position + 4) cursor.position totals.dataFrames (base.dataFrames + totals.dataFrames) magic
    (base.totalFrames + totals.totalFrames) base.counters totals.counters hbegins (Nat.le_refl _)
    (by omega) (by omega) hcounted.counters next next' (hinside.mono (by omega)) _ hframe
  replace hinside' : Inside before input behind (cursor.position + 4) last last' := hinside'
  obtain ⟨hcount', hfits⟩ := hcounters counted hcount
  have hstop := hinside'.position
  have hfloor := hinside'.floor
  refine ⟨_, last, last', ⟨hinside'.mono (Nat.zero_le _), hfloor, rfl, fun hsized => sized_taken hsized hsize,
    fun ranges hranges => ⟨[F.record cursor.position last.position parsed], rfl, ?_⟩,
    hcounted.more (by omega) rfl (Nat.add_right_comm _ 1 _) ?_ hfits,
    fun hlimit hbound fuel out hout => ?_⟩, hrun⟩
  · rw [List.map_singleton, U.span_record]
    exact .data hword hskippable hfloor hranges
  · have hrecords := hcounted.records
    rw [join_taken]
    show ((U.join before.length base totals).frames ++ [_]).length = _ + 1
    rw [List.length_append, hrecords]
    rfl
  · refine (FrameFormat.parseFrom_succ_eq_ok (h.goes_on hahead)).mpr ⟨?_, hlimit, magic, next', hmagic', ?_⟩
    · show base.totalFrames + totals.totalFrames + 1 < 2 ^ 64
      omega
    · rw [if_neg hskippable, hstart]
      rw [join_taken, ← hstop] at hout
      refine ⟨_, parsed, last', _, _, hframe', ?_, hcount', FrameFormat.addSize_join hsize hbound, hout⟩
      show base.dataFrames + totals.dataFrames + 1 < 2 ^ 64
      omega

/-- The loop over a file does in a longer one what it does alone, and its frames lie side by side. -/
theorem parseFrom (hbegins : Begins U.starts behind) (fuel : Nat) :
    ∀ {totals totals' : FrameTotals σ φ} {cursor outer last : StreamCursor},
      Inside before input behind 0 cursor outer →
      U.Counted (U.join before.length base totals) outer.position → U.Sized totals →
      (F.parseFrom limits input fuel totals cursor).result = .ok (totals', last) →
      ∃ rounds outer' more, Inside before input behind 0 last outer' ∧
        outer'.position = before.length + input.length ∧
        cursor.position + rounds ≤ last.position ∧ totals'.totalFrames = totals.totalFrames + rounds ∧
        totals'.frames = totals.frames ++ more ∧ Tiles input cursor.position (more.map U.span) ∧
        U.Sized totals' ∧ U.Counted (U.join before.length base totals') outer'.position ∧
        (base.totalFrames + totals'.totalFrames ≤ limits.maxStreamFrames →
          U.Sized base → U.declared base.frames + U.declared totals'.frames < 2 ^ 64 →
          ∀ fuel out, (F.parseFrom limits (before ++ (input ++ behind)) fuel
              (U.join before.length base totals') outer').result = .ok out →
            (F.parseFrom limits (before ++ (input ++ behind)) (rounds + fuel)
              (U.join before.length base totals) outer).result = .ok out) := by
  induction fuel with
  | zero =>
      intro totals totals' cursor outer last _ _ _ hrun
      exact absurd hrun (StreamCursor.result_refuse _ _ _)
  | succ fuel ih =>
      intro totals totals' cursor outer last h hcounted hsized hrun
      by_cases hahead : cursor.ahead.isEmpty = true
      · -- The file has ended.
        rw [FrameFormat.parseFrom, Cursor.result_bind_ok (show (remaining cursor).result
          = .ok (cursor.ahead, cursor) from rfl), if_pos hahead] at hrun
        obtain ⟨rfl, rfl⟩ := Cursor.pure_eq_ok.mp hrun
        have hend : cursor.position = input.length := by
          have hle := h.position_le
          have hnone := congrArg List.length (List.isEmpty_iff.mp hahead)
          rw [length_ahead, h.own, List.length_nil] at hnone
          omega
        refine ⟨0, outer, [], h, by rw [h.position, hend], Nat.le_refl _, rfl, (List.append_nil _).symm,
          hend ▸ Tiles.done, hsized, hcounted, fun _ _ _ fuel out hout => ?_⟩
        rw [Nat.zero_add]
        exact hout
      · obtain ⟨hlt, hlimit, magic, next, hmagic, hround⟩ :=
          (FrameFormat.parseFrom_succ_eq_ok hahead).mp hrun
        obtain ⟨totals₁, cursor₁, outer₁, hround, hrun'⟩ : ∃ totals₁ cursor₁ outer₁,
            U.Round limits before input behind base totals totals₁ cursor outer cursor₁ outer₁ ∧
            (F.parseFrom limits input fuel totals₁ cursor₁).result = .ok (totals', last) := by
          by_cases hskippable : isSkippable magic = true
          · rw [if_pos hskippable] at hround
            exact round_skipped h hahead hcounted hmagic hskippable hround
          · rw [if_neg hskippable] at hround
            exact round_taken hbegins h hahead hcounted hmagic hskippable hround
        obtain ⟨rounds, outer', more, hinside, hend, hadvance, htotal, hframes, htiles, hsized', hcounted',
          houter⟩ := ih hround.inside hround.counted (hround.sized hsized) hrun'
        obtain ⟨first, hfirst, htiles'⟩ := hround.tiles _ htiles
        have hmore := hround.advance
        have hone := hround.total
        refine ⟨rounds + 1, outer', first ++ more, hinside, hend, by omega, by omega, ?_, ?_, hsized',
          hcounted', fun hlimit' hbase hdeclared fuel' out hout => ?_⟩
        · rw [hframes, hfirst, List.append_assoc]
        · rw [List.map_append]
          exact htiles'
        · rw [Nat.add_right_comm]
          refine hround.outer (by omega) (fun m n hm hn => ?_) _ _
            (houter hlimit' hbase hdeclared fuel' out hout)
          -- What is declared so far is part of what is declared in the end.
          have hm' := hbase m hm
          have hn' := hround.sized hsized n hn
          rw [hframes, declared_append] at hdeclared
          omega

/-! ### Whole files -/

/-- The totals that the loop starts with. -/
def start (U : Uniform F) : FrameTotals σ φ where
  totalFrames := 0
  dataFrames := 0
  skippableFrames := 0
  counters := U.none
  maximumBytes := 0
  aggregateSize := some 0
  frames := []

theorem join_start (totals : FrameTotals σ φ) : U.join 0 U.start totals = totals := by
  have hsize : joinSizes (some 0) totals.aggregateSize = totals.aggregateSize := by
    cases totals.aggregateSize with
    | none => rfl
    | some n => exact congrArg some (Nat.zero_add n)
  have hframes : totals.frames.map (U.shift 0) = totals.frames := by
    rw [List.map_congr_left fun frame _ => U.shift_zero frame, List.map_id']
  rw [join, start, U.none_add, hsize, hframes, Nat.zero_add, Nat.zero_add, Nat.zero_add, Nat.zero_max,
    List.nil_append]

theorem join_start_right (k : Nat) (totals : FrameTotals σ φ) : U.join k totals U.start = totals := by
  have hsize : joinSizes totals.aggregateSize (some 0) = totals.aggregateSize := by
    cases totals.aggregateSize <;> rfl
  rw [join, start, U.add_none, hsize, List.map_nil, List.append_nil, Nat.max_zero]
  rfl

theorem parseTotals_eq_ok {input : Bytes} : (F.parseTotals U.none limits input).result = .ok totals ↔
    totals.dataFrames ≠ 0 ∧ ∃ last, (F.parseFrom limits input (input.length + 1) U.start
      (new input F.name)).result = .ok (totals, last) := by
  rw [FrameFormat.parseTotals, Metered.bind_eq_ok]
  constructor
  · rintro ⟨⟨totals', last⟩, hrun, h⟩
    obtain ⟨hdata, hpure⟩ := refuseStream_eq_ok.mp h
    obtain rfl := Except.ok.inj hpure
    exact ⟨hdata, last, hrun⟩
  · rintro ⟨hdata, last, hrun⟩
    exact ⟨(totals, last), hrun, refuseStream_eq_ok.mpr ⟨hdata, rfl⟩⟩

theorem counted_start (position : Nat) : U.Counted U.start position :=
  ⟨Nat.zero_le _, rfl, rfl, U.fits_none⟩

theorem sized_start : U.Sized U.start := fun _ hn => (Option.some.inj hn).symm

/-- Every frame is counted as what it is, and the data frames of a file and the skippable ones between
them are all of it. -/
theorem tiles_of_parseTotals (hsmall : input.length < 2 ^ 64)
    (h : (F.parseTotals U.none limits input).result = .ok totals) :
    totals.dataFrames + totals.skippableFrames = totals.totalFrames ∧
      totals.frames.length = totals.dataFrames ∧ Tiles input 0 (totals.frames.map U.span) := by
  obtain ⟨-, last, hrun⟩ := parseTotals_eq_ok.mp h
  have hbytes : input = [] ++ (input ++ []) := (List.append_nil input).symm
  have hinside : Inside [] input [] 0 (new input F.name) (new input F.name) :=
    ⟨rfl, hbytes, rfl, Nat.le_refl _, hsmall⟩
  obtain ⟨_, _, more, _, _, _, _, hframes, htiles, _, hcounted, -⟩ := @parseFrom σ π φ F U limits [] input
    [] U.start (Or.inl rfl) _ U.start totals _ _ last hinside
    (by rw [List.length_nil, join_start]; exact counted_start _) sized_start hrun
  rw [List.length_nil, join_start] at hcounted
  refine ⟨hcounted.kinds, hcounted.records, ?_⟩
  rw [hframes]
  exact htiles

/-- A file that parses begins with the magic of a frame. -/
theorem begins_of_parseTotals (h : (F.parseTotals U.none limits input).result = .ok totals) :
    Begins U.starts input := by
  obtain ⟨hdata, last, hrun⟩ := parseTotals_eq_ok.mp h
  by_cases hahead : (new input F.name).ahead.isEmpty = true
  · exact Or.inl (List.isEmpty_iff.mp hahead)
  · obtain ⟨-, -, magic, next, hmagic, hround⟩ := (FrameFormat.parseFrom_succ_eq_ok hahead).mp hrun
    obtain ⟨⟨-, hlength, hword⟩, -⟩ := wordAt_of_readU32Le hmagic
    have hstarts : U.starts magic := by
      by_cases hskippable : isSkippable magic = true
      · exact U.starts_skippable hskippable
      · rw [if_neg hskippable] at hround
        obtain ⟨_, _, _, _, _, hframe, -⟩ := hround
        exact U.starts_frame hframe
    refine Or.inr ⟨show 4 ≤ input.length from ?_, ?_⟩
    · exact (Nat.zero_add 4 ▸ hlength : 4 ≤ input.length)
    · rw [← show magic = leValue (input.take 4) from hword]
      exact hstarts

/-- What is counted in two files, one behind the other, is what is counted in each. -/
theorem parseTotals_append {a b : Bytes} {totals' : FrameTotals σ φ} (hsmall : (a ++ b).length < 2 ^ 64)
    (ha : (F.parseTotals U.none limits a).result = .ok totals)
    (hb : (F.parseTotals U.none limits b).result = .ok totals')
    (hcount : totals.dataFrames + totals.skippableFrames + (totals'.dataFrames + totals'.skippableFrames)
      ≤ limits.maxStreamFrames)
    (hdeclared : U.declared totals.frames + U.declared totals'.frames < 2 ^ 64) :
    (F.parseTotals U.none limits (a ++ b)).result = .ok (U.join a.length totals totals') := by
  have hlength : (a ++ b).length = a.length + b.length := List.length_append
  have hkinds := (tiles_of_parseTotals (by omega) ha).1
  have hkinds' := (tiles_of_parseTotals (by omega) hb).1
  have hlimit : totals.totalFrames + totals'.totalFrames ≤ limits.maxStreamFrames := by omega
  obtain ⟨hdata, last, hrun⟩ := parseTotals_eq_ok.mp ha
  obtain ⟨hdata', last', hrun'⟩ := parseTotals_eq_ok.mp hb
  have hbegins := begins_of_parseTotals hb
  have hinside : Inside [] a b 0 (new a F.name) (new (a ++ b) F.name) :=
    ⟨rfl, rfl, rfl, Nat.le_refl _, hsmall⟩
  obtain ⟨rounds, outer, -, hfirst, hposition, hrounds, -, -, -, hsized, hcounted, houter⟩ :=
    @parseFrom σ π φ F U limits [] a b U.start hbegins _ U.start totals _ _ last hinside
      (by rw [List.length_nil, join_start]; exact counted_start _) sized_start hrun
  rw [List.length_nil, join_start] at hcounted
  rw [List.length_nil, join_start, join_start] at houter
  rw [List.length_nil, Nat.zero_add] at hposition
  rw [List.nil_append] at houter
  have htotal : U.start.totalFrames = 0 := rfl
  have hnothing : U.declared U.start.frames = 0 := rfl
  rw [htotal, hnothing] at houter
  replace houter := fun hlimit hdeclared => houter hlimit sized_start hdeclared
  have hinside' : Inside a b [] 0 (new b F.name) outer :=
    ⟨rfl, by rw [hfirst.bytes, List.append_nil, List.nil_append], by rw [hposition]; rfl,
      Nat.le_refl _, hfirst.small⟩
  obtain ⟨rounds', outer', -, hsecond, hposition', hrounds', -, -, -, -, -, houter'⟩ :=
    @parseFrom σ π φ F U limits a b [] totals (Or.inl rfl) _ U.start totals' _ _ last' hinside'
      (by rw [join_start_right]; exact hcounted) sized_start hrun'
  rw [join_start_right, List.append_nil] at houter'
  have hle : last.position ≤ a.length := hfirst.position_le
  have hle' : last'.position ≤ b.length := hsecond.position_le
  have hzero : (new a F.name).position = 0 := rfl
  have hzero' : (new b F.name).position = 0 := rfl
  obtain ⟨rest, hfuel⟩ : ∃ rest, (a ++ b).length + 1 = rounds + (rounds' + (rest + 1)) :=
    ⟨(a ++ b).length - (rounds + rounds'), by omega⟩
  -- Both files have ended, and so has the longer one.
  have hend : outer'.ahead.isEmpty = true := by
    have hbytes := hsecond.bytes
    rw [List.append_nil] at hbytes
    rw [StreamCursor.ahead, hbytes, List.isEmpty_iff]
    exact List.drop_eq_nil_of_le (by omega)
  have hlast : (F.parseFrom limits (a ++ b) (rest + 1) (U.join a.length totals totals') outer').result
      = .ok (U.join a.length totals totals', outer') := by
    rw [FrameFormat.parseFrom, Cursor.result_bind_ok (show (remaining outer').result
      = .ok (outer'.ahead, outer') from rfl), if_pos hend]
    rfl
  have hall : (F.parseFrom limits (a ++ b) ((a ++ b).length + 1) U.start (new (a ++ b) F.name)).result
      = .ok (U.join a.length totals totals', outer') := by
    have hbehind := houter' hlimit hsized hdeclared (rest + 1) _ hlast
    rw [hfuel]
    exact houter (by omega) (by omega) _ _ hbehind
  have hsome : (U.join a.length totals totals').dataFrames ≠ 0 := by
    show totals.dataFrames + totals'.dataFrames ≠ 0
    omega
  exact parseTotals_eq_ok.mpr ⟨hsome, outer', hall⟩

end Uniform

end Un7z
