/-
Archives in volumes: `volume.rs`, and `open_volumes_inner` of `archive.rs`.

The caller supplies the volumes.  A provider and the volume it has opened last are
objects of the caller, so they are one state and four functions on it, and reading is a
session on that state.

Opening has three phases.  The volumes are read until one is missing; a probe says
whether the bytes declare more than there is; and then they are opened like any others.
The first two are a session.  The third is not: when it fails, and the probe has asked
for more, its error is replaced, an interruption like any other error.  So
`openVolumesInner` is a function of the control, with no law to it.
-/
import Un7z.Archive
import Un7z.Extract

namespace Un7z

open Metered (fail)

/-! ### Volumes -/

/-- `io::Result`. -/
abbrev IoResult (α : Type) := Except (IoErrorKind × String) α

/-- `map_err(Error::Io)`. -/
def ioStep {α : Type} : IoResult α → Except Error α
  | .ok a => .ok a
  | .error (kind, detail) => .error (.ioError kind detail)

/-- What a `read` into a buffer of this length answers, and leaves in the buffer. -/
structure VolumeRead (maximum : Nat) where
  count : Nat
  target : Bytes
  target_length : target.length = maximum

/-- `trait VolumeProvider`, and `trait Volume` for the volume opened last. -/
structure VolumeProvider (σ : Type) where
  openVolume : (index : Nat) → (expectedName : String) → σ → Except Error Unit × σ
  len : σ → IoResult Nat × σ
  seek : (position : Nat) → σ → IoResult Unit × σ
  read : (maximum : Nat) → σ → IoResult (VolumeRead maximum) × σ

/-- `MemoryVolumeProvider`: which volume was opened last, and how far its cursor is. -/
def memoryVolumeProvider (volumes : List Bytes) : VolumeProvider (Nat × Nat) where
  openVolume index expectedName state :=
    if index < volumes.length then
      (.ok (), (index, 0))
    else
      (.error (.missingVolume expectedName), state)
  len state := (.ok (volumes[state.1]?.getD []).length, state)
  seek position state := (.ok (), (state.1, position))
  read maximum state :=
    let bytes := ((volumes[state.1]?.getD []).drop state.2).take maximum
    have hle : bytes.length ≤ maximum := List.length_take_le _ _
    (.ok ⟨bytes.length, bytes ++ List.replicate (maximum - bytes.length) 0, by
      rw [List.length_append, List.length_replicate, Nat.add_sub_cancel' hle]⟩,
      (state.1, state.2 + bytes.length))

inductive VolumeTermination
  /-- The volume of this name is missing. -/
  | missing (expected : String)
  | limit (requested maximum : Nat)
  deriving DecidableEq, Repr

structure VolumeBytes where
  bytes : Bytes
  termination : VolumeTermination
  deriving DecidableEq, Repr

namespace Volume

variable {σ : Type}

/-! ### Names -/

/-- `str::strip_suffix`. -/
def stripSuffix (name suffix : String) : Option String :=
  if suffix.toList <:+ name.toList then
    some (String.ofList (name.toList.take (name.toList.length - suffix.toList.length)))
  else
    none

/-- `{ordinal:03}`. -/
def paddedOrdinal (ordinal : Nat) : String :=
  let digits := Nat.toDigits 10 ordinal
  String.ofList (List.replicate (3 - digits.length) '0' ++ digits)

def sequentialName (firstName : String) (index : Nat) : Work String :=
  if index = 0 then
    pure firstName
  else do
    let stem ← orFormat (stripSuffix firstName ".001")
      "sequential volume access requires a .001 first-volume name"
    let ordinal ← orFormat (checkedAdd 64 index 1) "sequential volume ordinal overflows"
    pure (stem ++ "." ++ paddedOrdinal ordinal)

/-! ### Reading -/

/-- Call a method of the volume. -/
def io {α : Type} (method : σ → IoResult α × σ) : Stateful σ α :=
  Session.act fun state => (ioStep (method state).1, (method state).2)

/-- One round of the read loop of `append_volume`: the bytes read, and what remains. -/
def readChunk (provider : VolumeProvider σ) (remaining : Nat) : Stateful σ (Bytes × Nat) := do
  checkpoint 0
  let read ← io (provider.read (min remaining controlChunkSize))
  if read.count = 0 then
    (fail (.ioError .unexpectedEof "volume ended before its declared length") :
      Work (Bytes × Nat))
  else do
    checkpoint read.count
    let remaining ← orFormat (checkedSub remaining read.count)
      "volume read exceeded the declared length"
    let bytes ← checkedRange read.target 0 read.count
      "volume read result exceeds its buffer" "volume read result exceeds its buffer"
    pure (bytes, remaining)

/--
The read loop of `append_volume`.

Every round takes at least a byte, so with as much fuel as there are bytes remaining the
loop ends because none is.
-/
def readRemaining (provider : VolumeProvider σ) : Nat → Nat → Bytes → Stateful σ Bytes
  | 0, _, output => pure output
  | _ + 1, 0, output => pure output
  | fuel + 1, remaining + 1, output => do
      let (bytes, remaining) ← readChunk provider (remaining + 1)
      readRemaining provider fuel remaining (output ++ bytes)

def appendVolume (provider : VolumeProvider σ) (limits : Limits) (output : Bytes) :
    Stateful σ Bytes := do
  checkpoint 0
  let length ← io provider.len
  let requested ← orFormat (checkedAdd 64 output.length length) "total volume length overflows"
  checkLimit requested limits.maxTotalInputBytes .totalInputBytes
  io (provider.seek 0)
  readRemaining provider length length output

/-- `provider.open_volume`, where a volume that is missing is a value. -/
def openVolume (provider : VolumeProvider σ) (index : Nat) (expectedName : String) :
    Stateful σ (Option VolumeTermination) :=
  Session.act fun state =>
    match provider.openVolume index expectedName state with
    | (.ok (), state) => (.ok none, state)
    | (.error (.missingVolume expected), state) => (.ok (some (.missing expected)), state)
    | (.error error, state) => (.error error, state)

/-- What the loop of `read_sequential_volumes` comes to when there is to be no other volume. -/
def volumeLimit (limits : Limits) (index : Nat) (bytes : Bytes) : Work VolumeBytes := do
  let requested ← orFormat (checkedAdd 64 index 1) "volume count overflows"
  if bytes.isEmpty then
    fail (.limitExceeded .volumes requested limits.maxVolumes)
  else
    pure ⟨bytes, .limit requested limits.maxVolumes⟩

/--
The loop of `read_sequential_volumes`, from volume `index` on.

`fuel` is how many volumes the limit still allows.
-/
def readVolumesFrom (provider : VolumeProvider σ) (firstName : String) (limits : Limits) :
    Nat → Nat → Bytes → Stateful σ VolumeBytes
  | 0, index, bytes => volumeLimit limits index bytes
  | fuel + 1, index, bytes => do
      let requested ← orFormat (checkedAdd 64 index 1) "volume count overflows"
      checkpoint 0
      let expectedName ← sequentialName firstName index
      match ← openVolume provider index expectedName with
      | some termination => pure ⟨bytes, termination⟩
      | none => do
          let bytes ← appendVolume provider limits bytes
          readVolumesFrom provider firstName limits fuel requested bytes

def readSequentialVolumes (provider : VolumeProvider σ) (firstName : String)
    (limits : Limits) : Stateful σ VolumeBytes :=
  readVolumesFrom provider firstName limits limits.maxVolumes 0 []

end Volume

/-! ### Opening -/

def VolumeTermination.error : VolumeTermination → Error
  | .missing expected => .missingVolume expected
  | .limit requested maximum => .limitExceeded .volumes requested maximum

namespace Archive

variable {σ : Type}

/-- `needs_more` of `open_volumes_inner`. -/
def needsMore (bytes : Bytes) (limits : Limits) : Work Bool :=
  if bytes.isEmpty then pure true else Parser.archiveDeclaresMoreBytes bytes limits

/-- The first two phases: the bytes of the volumes, and whether they are to be more. -/
def readAndProbe (provider : VolumeProvider σ) (firstName : String) (limits : Limits) :
    Stateful σ (VolumeBytes × Bool) := do
  let volumes ← Volume.readSequentialVolumes provider firstName limits
  let more ← needsMore volumes.bytes limits
  pure (volumes, more)

/-- What an error of the third phase is reported as: `Err(_) if needs_more`. -/
def reportedError (termination : VolumeTermination) (more : Bool) (error : Error) : Error :=
  if more then termination.error else error

/-- `open_volumes_inner`, as it runs under a control. -/
def openVolumesInner (codecs : Codecs) (layout : Layout) (provider : VolumeProvider σ)
    (firstName : String) (limits : Limits) (password : Option Password) (state : σ)
    (control : ParseControl) : (Except Error Archive × σ) × ParseControl :=
  match (readAndProbe provider firstName limits state).run control with
  | (.error (error, state), control) => ((.error error, state), control)
  | (.ok ((volumes, more), state), control) =>
      let opened := (openBytes codecs layout volumes.bytes limits password).run control
      ((opened.1.mapError (reportedError volumes.termination more), state), opened.2)

/-- `open_volumes_inner` when nothing interrupts it. -/
def openVolumesResult (codecs : Codecs) (layout : Layout) (provider : VolumeProvider σ)
    (firstName : String) (limits : Limits) (password : Option Password) (state : σ) :
    Except Error Archive × σ :=
  match (readAndProbe provider firstName limits).result state with
  | (.error error, state) => (.error error, state)
  | (.ok (volumes, more), state) =>
      ((openBytes codecs layout volumes.bytes limits password).result.mapError
        (reportedError volumes.termination more), state)

end Archive

end Un7z
