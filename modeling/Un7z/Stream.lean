/-
Standalone compressed streams: `stream/cursor.rs`, the errors and constants of
`stream/mod.rs`, and the loop over frames that `lz4::parse` and `zstandard::parse` share.

Nothing here takes a control; these are computations that ask for no work.  A `u32` and
a `u24` are `Nat`s as a `u64` is.  The two loops differ in how a data frame is read, in
what they count about it and in what they record of it, and in nothing else: that is a
`FrameFormat`.
-/
import Un7z.Bounded

namespace Un7z

open Metered (fail)

def lz4Magic : Nat := 0x184d2204
def lz4LegacyMagic : Nat := 0x184c2102
def skippableMagicStart : Nat := 0x184d2a50
def skippableMagicEnd : Nat := 0x184d2a5f
def zstandardMagic : Nat := 0xfd2fb528

def streamFormatError (format detail : String) : Error := .streamFormat format detail

def streamChecksumError (format : String) (frameIndex : Nat) : Error :=
  .streamChecksum format frameIndex

/-- `return Err(stream_format_error(format, detail))`. -/
def streamFormatErr {α : Type} (format detail : String) : Work α :=
  fail (streamFormatError format detail)

@[simp] theorem result_streamFormatErr {α : Type} (format detail : String) :
    (streamFormatErr format detail : Work α).result = .error (streamFormatError format detail) :=
  rfl

/-- `ok_or_else(|| stream_format_error(format, detail))?`. -/
def orStreamFormat {α : Type} (value : Option α) (format detail : String) : Work α :=
  match value with
  | some a => pure a
  | none => streamFormatErr format detail

@[simp] theorem orStreamFormat_eq_ok {α : Type} {value : Option α} {format detail : String}
    {a : α} : (orStreamFormat value format detail).result = .ok a ↔ value = some a := by
  cases value <;> simp [orStreamFormat]

theorem trace_orStreamFormat {α : Type} (value : Option α) (format detail : String) :
    (orStreamFormat value format detail).trace = [] := by
  cases value <;> rfl

@[simp] theorem refuseStream_eq_ok {α : Type} {c : Prop} [Decidable c] {format detail : String}
    {m : Work α} {a : α} :
    (if c then streamFormatErr format detail else m).result = .ok a ↔ ¬ c ∧ m.result = .ok a :=
  refuse_eq_ok

/-! ### The cursor -/

structure StreamCursor where
  bytes : Bytes
  position : Nat
  position_le : position ≤ bytes.length
  format : String

/-- A function of the source that takes `&mut StreamCursor`. -/
abbrev StreamReads := StateT StreamCursor Work

namespace StreamCursor

def new (bytes : Bytes) (format : String) : StreamCursor :=
  ⟨bytes, 0, (BoundedReader.new bytes).position_le, format⟩

/-- The slice `remaining` returns; the position is in range by the type. -/
def ahead (cursor : StreamCursor) : Bytes := cursor.bytes.drop cursor.position

@[simp] theorem ahead_new (bytes : Bytes) (format : String) : (new bytes format).ahead = bytes :=
  rfl

theorem length_ahead (cursor : StreamCursor) :
    cursor.ahead.length = cursor.bytes.length - cursor.position :=
  List.length_drop

def currentPosition : StreamReads Nat := fun cursor => pure (cursor.position, cursor)

def remaining : StreamReads Bytes := fun cursor => pure (cursor.ahead, cursor)

/-- An error under the format the cursor was made for. -/
def refuse {α : Type} (detail : String) : StreamReads α := fun cursor =>
  streamFormatErr cursor.format detail

def readBytes (length : Nat) (truncatedDetail : String) : StreamReads Bytes := fun cursor =>
  match checkedAdd 64 cursor.position length with
  | none => streamFormatErr cursor.format "byte range end overflows"
  | some stop =>
      if h : stop ≤ cursor.bytes.length then
        pure (cursor.ahead.take length, ⟨cursor.bytes, stop, h, cursor.format⟩)
      else
        streamFormatErr cursor.format truncatedDetail

def skipU64 (length : Nat) (truncatedDetail : String) : StreamReads Unit := do
  let _ ← readBytes length truncatedDetail
  pure ()

def readU8 (truncatedDetail : String) : StreamReads UInt8 := do
  match (← readBytes 1 truncatedDetail).head? with
  | some byte => pure byte
  | none => refuse truncatedDetail

def readU24Le (truncatedDetail : String) : StreamReads Nat := do
  let bytes ← readBytes 3 truncatedDetail
  if bytes.length = 3 then pure (leValue bytes) else refuse truncatedDetail

def readU32Le (truncatedDetail : String) : StreamReads Nat := do
  let bytes ← readBytes 4 truncatedDetail
  if bytes.length = 4 then pure (leValue bytes) else refuse truncatedDetail

/-- The shift of the ninth byte would be 64. -/
def readLe (length : Nat) (truncatedDetail : String) : StreamReads Nat := do
  let bytes ← readBytes length truncatedDetail
  if bytes.length ≤ 8 then pure (leValue bytes) else refuse "integer value overflows"

/-- A four-byte field that is read past where a flag says it is there. -/
def passU32If (present : Bool) (truncatedDetail : String) : StreamReads Unit :=
  if present then do
    let _ ← readU32Le truncatedDetail
    pure ()
  else
    pure ()

end StreamCursor

/-! ### The loop over frames -/

def checkFrameCount (count : Nat) (limits : Limits) : Work Unit :=
  checkLimit count limits.maxStreamFrames .streamFrames

def isSkippable (magic : Nat) : Bool := skippableMagicStart ≤ magic && magic ≤ skippableMagicEnd

/-- `count.checked_add(1)`, as every counter of the loops is advanced. -/
def countOne (format detail : String) (count : Nat) : Work Nat :=
  orStreamFormat (checkedAdd 64 count 1) format detail

/-- Advance a counter only for the frames it counts. -/
def countIf (counted : Bool) (format detail : String) (count : Nat) : Work Nat :=
  if counted then countOne format detail count else pure count

/-- The local variables of the loop; the counters only one format has are `σ`. -/
structure FrameTotals (σ φ : Type) where
  totalFrames : Nat
  dataFrames : Nat
  skippableFrames : Nat
  counters : σ
  maximumBytes : Nat
  aggregateSize : Option Nat
  frames : List φ

/-- What tells the two loops apart: `π` is a parsed frame and `φ` what is recorded of it. -/
structure FrameFormat (σ π φ : Type) where
  name : String
  /-- Read a data frame behind its magic, on an input, at its start and with its index. -/
  readFrame : (input : Bytes) → (start frameIndex magic : Nat) → σ → StreamReads (σ × π)
  count : π → σ → Work σ
  maximumBytes : π → Nat
  contentSize : π → Option Nat
  record : (start stop : Nat) → π → φ

namespace FrameFormat

open StreamCursor

variable {σ π φ : Type}

def addSize (F : FrameFormat σ π φ) : Option Nat → Option Nat → Work (Option Nat)
  | some total, some size => do
      let sum ← orStreamFormat (checkedAdd 64 total size) F.name "aggregate content size overflows"
      pure (some sum)
  | _, _ => pure none

/-- Every round of the loop reads at least a magic, so `fuel` does not run out. -/
def parseFrom (F : FrameFormat σ π φ) (limits : Limits) (input : Bytes) :
    Nat → FrameTotals σ φ → StreamReads (FrameTotals σ φ)
  | 0, _ => refuse "frame scan does not advance"
  | fuel + 1, totals => do
      if (← remaining).isEmpty then
        pure totals
      else do
        let totalFrames ← countOne F.name "frame count overflows" totals.totalFrames
        checkFrameCount totalFrames limits
        let start ← currentPosition
        let magic ← StreamCursor.readU32Le "frame magic is truncated"
        if isSkippable magic then do
          let length ← StreamCursor.readU32Le "skippable frame size is truncated"
          skipU64 length "skippable frame payload is truncated"
          let skippableFrames ←
            countOne F.name "skippable frame count overflows" totals.skippableFrames
          parseFrom F limits input fuel { totals with totalFrames, skippableFrames }
        else do
          let (counters, parsed) ← F.readFrame input start totals.dataFrames magic totals.counters
          let dataFrames ← countOne F.name "data frame count overflows" totals.dataFrames
          let counters ← F.count parsed counters
          let aggregateSize ← F.addSize totals.aggregateSize (F.contentSize parsed)
          let stop ← currentPosition
          parseFrom F limits input fuel
            { totalFrames
              dataFrames
              skippableFrames := totals.skippableFrames
              counters
              maximumBytes := max totals.maximumBytes (F.maximumBytes parsed)
              aggregateSize
              frames := totals.frames ++ [F.record start stop parsed] }

/-- The part of `parse` before the totals are handed out. -/
def parseTotals (F : FrameFormat σ π φ) (none : σ) (limits : Limits) (input : Bytes) :
    Work (FrameTotals σ φ) := do
  let (totals, _) ← (F.parseFrom limits input (input.length + 1)
    { totalFrames := 0, dataFrames := 0, skippableFrames := 0, counters := none,
      maximumBytes := 0, aggregateSize := some 0, frames := [] }).run (new input F.name)
  if totals.dataFrames = 0 then
    streamFormatErr F.name "stream contains no data frame"
  else
    pure totals

end FrameFormat

end Un7z
