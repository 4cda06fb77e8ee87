/-
Unix `compress`: `stream/unix_compress.rs`, and the `ExtractionControl` of
`stream/mod.rs` it writes its output through.

The writer belongs to the caller, so it is a state and a function on it, and decoding is
a session on what an `ExtractionControl` holds.  The expansion of a code is a stack: it is
a list with its top in front, and so already in the order in which it is written.
-/
import Un7z.Stream
import Un7z.Lib.Session

namespace Un7z

open Metered (fail)

/-! ### Extraction -/

/-- `trait Write`, implemented on a state `σ`: `write_all`, with the errors of `std::io`. -/
structure Writer (σ : Type) where
  writeAll : (bytes : Bytes) → σ → Except (IoErrorKind × String) Unit × σ

/-- What an `ExtractionControl` holds besides its cancellation token, budget and limits. -/
structure Extraction (σ : Type) where
  writer : σ
  outputBytes : Nat := 0
  framesDecoded : Nat := 0
  checksumsVerified : Nat := 0
  deriving DecidableEq, Repr

/-- A method of `ExtractionControl`. -/
abbrev Extracting (σ α : Type) := Session ParseControl Charge Error (Extraction σ) α

namespace Extraction

variable {σ : Type}

/-- `self.writer.write_all(bytes).map_err(Error::Io)?; self.output_bytes = next;` -/
def writeAll (writer : Writer σ) (bytes : Bytes) (next : Nat) : Extracting σ Unit :=
  Session.act fun extraction =>
    match writer.writeAll bytes extraction.writer with
    | (.ok (), state) => (.ok (), { extraction with writer := state, outputBytes := next })
    | (.error (kind, detail), state) =>
        (.error (.ioError kind detail), { extraction with writer := state })

/-- The size of the output with this much more. -/
def nextOutputBytes (limits : Limits) (additional : Nat) (extraction : Extraction σ) : Work Nat := do
  let next ← orStreamFormat (checkedAdd 64 extraction.outputBytes additional) "compressed"
    "output size overflows"
  checkLimit next limits.maxEntryOutputBytes .entryOutputBytes
  checkLimit next limits.maxTotalOutputBytes .totalOutputBytes
  pure next

def get : Extracting σ (Extraction σ) := Session.act fun extraction => (.ok extraction, extraction)

def writeOutput (writer : Writer σ) (limits : Limits) (bytes : Bytes) : Extracting σ Unit := do
  checkCancelled
  let extraction ← get
  let next ← extraction.nextOutputBytes limits bytes.length
  writeAll writer bytes next

def setFrames (framesDecoded checksumsVerified : Nat) : Extracting σ Unit :=
  Session.act fun extraction => (.ok (), { extraction with framesDecoded, checksumsVerified })

def finishFrame (checksumVerified : Bool) : Extracting σ Unit := do
  let extraction ← get
  let framesDecoded ← countOne "compressed" "decoded frame count overflows" extraction.framesDecoded
  let checksumsVerified ← countIf checksumVerified "compressed" "verified checksum count overflows"
    extraction.checksumsVerified
  setFrames framesDecoded checksumsVerified

end Extraction

namespace UnixCompress

def headerBytes : Nat := 3
def initialCodeBits : Nat := 9
def clearCode : Nat := 256
def firstBlockCode : Nat := 257
def firstPlainCode : Nat := 256
def minimumCodeBits : Nat := 9
def maximumCodeBits : Nat := 16
def blockModeFlag : UInt8 := 0x80
def reservedFlags : UInt8 := 0x60
def codeBitsMask : UInt8 := 0x1f
def unixCompressMagic : Bytes := [0x1f, 0x9d]

/-- `stream_format_error("unix-compress", detail)`, and the ways to return it. -/
def refuse {α : Type} (detail : String) : Work α := streamFormatErr "unix-compress" detail

def orRefuse {α : Type} (value : Option α) (detail : String) : Work α :=
  orStreamFormat value "unix-compress" detail

/-! ### The header -/

structure UnixCompressLayout where
  maximumCodeBits : Nat
  blockMode : Bool
  dictionaryEntries : Nat
  dictionaryBytes : Nat
  deriving DecidableEq, Repr

structure UnixCompressStreamInfo where
  maximumCodeBits : Nat
  blockMode : Bool
  dictionaryBytes : Nat
  deriving DecidableEq, Repr

/-- What the flags of the header say of the dictionary. -/
def dictionaryOf (flags : UInt8) (limits : Limits) :
    Work (UnixCompressStreamInfo × UnixCompressLayout) := do
  if flags &&& reservedFlags ≠ 0 then
    refuse "reserved header flags are set"
  else
    let codeBits := (flags &&& codeBitsMask).toNat
    if ¬ (minimumCodeBits ≤ codeBits ∧ codeBits ≤ maximumCodeBits) then
      refuse "maximum code width is outside 9 through 16 bits"
    else do
      let dictionaryEntries ← orRefuse (checkedShl 64 1 codeBits) "dictionary size overflows"
      -- an entry is a `u16` and two `u8`s
      let dictionaryBytes ← orRefuse (checkedMul 64 dictionaryEntries 4)
        "dictionary byte size overflows"
      checkLimit dictionaryBytes limits.maxDictionaryBytes .dictionaryBytes
      let blockMode := flags &&& blockModeFlag ≠ 0
      pure (⟨codeBits, blockMode, dictionaryBytes⟩,
        ⟨codeBits, blockMode, dictionaryEntries, dictionaryBytes⟩)

def parse (input : Bytes) (limits : Limits) : Work (UnixCompressStreamInfo × UnixCompressLayout) := do
  if input.length < headerBytes then
    refuse "header is truncated"
  else if (input.take headerBytes).take 2 ≠ unixCompressMagic then
    refuse "magic does not match"
  else do
    checkFrameCount 1 limits
    let flags ← orRefuse (input.take headerBytes)[2]? "flags byte is truncated"
    dictionaryOf flags limits

/-! ### Codes -/

structure CodeReader where
  input : Bytes
  position : Nat
  groupStart : Nat
  groupLength : Nat
  bitOffset : Nat
  validBits : Nat
  deriving DecidableEq, Repr

namespace CodeReader

def new (input : Bytes) : CodeReader := ⟨input, 0, 0, 0, 0, 0⟩

/-- Start the next group: up to `width` bytes, of which only complete codes are valid. -/
def refill (width : Nat) (reader : CodeReader) : Work (Bool × CodeReader) := do
  if reader.position > reader.input.length then
    refuse "code-reader position is out of range"
  else
    let remaining := reader.input.drop reader.position
    if remaining.isEmpty then
      pure (false, reader)
    else do
      let groupLength := min remaining.length width
      let position ← orRefuse (checkedAdd 64 reader.position groupLength)
        "code-reader position overflows"
      let groupBits ← orRefuse (checkedMul 64 groupLength 8) "code group bit count overflows"
      if width = 0 then
        refuse "code width is zero"
      else do
        let completeCodes := groupBits / width
        let validBits ← orRefuse (checkedMul 64 completeCodes width)
          "valid code bit count overflows"
        pure (completeCodes ≠ 0, { reader with
          position, groupStart := reader.position, groupLength, bitOffset := 0, validBits })

/-- The bit loop of `next_code`, from output bit `outputBit` on, for `count` more bits. -/
def gatherBits (group : Bytes) (bitOffset : Nat) : Nat → Nat → Nat → Work Nat
  | 0, _, value => pure value
  | count + 1, outputBit, value => do
      let sourceBit ← orRefuse (checkedAdd 64 bitOffset outputBit) "source bit offset overflows"
      let byte ← orRefuse group[sourceBit / 8]? "encoded code is truncated"
      let bit := ((byte >>> UInt8.ofNat (sourceBit % 8)) &&& 1).toNat
      let shifted ← orRefuse (checkedShl 32 bit outputBit) "decoded code overflows"
      gatherBits group bitOffset count (outputBit + 1) (value ||| shifted)

/-- The code at the bit offset, in the group that has been started. -/
def readCode (width : Nat) (reader : CodeReader) : Work (Nat × CodeReader) := do
  let groupEnd ← orRefuse (checkedAdd 64 reader.groupStart reader.groupLength)
    "code group range overflows"
  if groupEnd > reader.input.length then
    refuse "code group is unavailable"
  else do
    let group := (reader.input.drop reader.groupStart).take reader.groupLength
    let value ← gatherBits group reader.bitOffset width 0 0
    let bitOffset ← orRefuse (checkedAdd 64 reader.bitOffset width) "code bit offset overflows"
    let code ← orRefuse (tryFrom 16 value) "decoded code is not representable"
    pure (code, { reader with bitOffset })

def nextCode (width : Nat) (forceRefill : Bool) (reader : CodeReader) :
    Work (Option Nat × CodeReader) := do
  let (ready, reader) ←
    if forceRefill ∨ reader.bitOffset ≥ reader.validBits then reader.refill width
    else pure (true, reader)
  if ready then do
    let (code, reader) ← reader.readCode width
    pure (some code, reader)
  else
    pure (none, reader)

end CodeReader

/-! ### The dictionary -/

def maximumCodeForWidth (width maximumWidth : Nat) : Work Nat := do
  let codes ← orRefuse (checkedShl 32 1 width) "code-width shift overflows"
  if width = maximumWidth then
    pure codes
  else
    orRefuse (checkedSub codes 1) "maximum code underflows"

/-- `values.get_mut(index)`, and what is assigned there. -/
def setAt {α : Type} (values : List α) (index : Nat) (value : α) (detail : String) :
    Work (List α) :=
  if index < values.length then pure (values.set index value) else refuse detail

/-- The loop over the literals that are left. -/
def fillLiterals : List Nat → Bytes → Work Bytes
  | [], suffixes => pure suffixes
  | literal :: rest, suffixes => do
      let value ← orRefuse (tryFrom 8 literal) "literal value is not representable"
      let suffixes ← setAt suffixes literal (UInt8.ofNat value) "literal table index is unavailable"
      fillLiterals rest suffixes

/-- The locals of `decode_lzw` at the top of its loop. -/
structure LzwState where
  prefixes : List Nat
  suffixes : Bytes
  codeBits : Nat
  maximumCurrentCode : Nat
  nextCode : Nat
  previousCode : Option Nat
  firstCharacter : UInt8
  reader : CodeReader
  forceRefill : Bool
  deriving DecidableEq, Repr

/-- What `decode_lzw` is called with, and the bound it computes from it. -/
structure LzwParameters where
  maximumCodeBits : Nat
  blockMode : Bool
  dictionaryEntries : Nat
  maximumCodes : Nat
  deriving DecidableEq, Repr

namespace LzwState

def widen (parameters : LzwParameters) (state : LzwState) : Work LzwState :=
  if state.nextCode > state.maximumCurrentCode ∧ state.codeBits < parameters.maximumCodeBits then do
    let codeBits ← orRefuse (checkedAdd 8 state.codeBits 1) "code width overflows"
    let maximumCurrentCode ← maximumCodeForWidth codeBits parameters.maximumCodeBits
    pure { state with codeBits, maximumCurrentCode, forceRefill := true }
  else
    pure state

/-- The branch of the CLEAR code: the table stays as it is, and is out of bounds from now on. -/
def clear (parameters : LzwParameters) (state : LzwState) : Work LzwState := do
  let maximumCurrentCode ← maximumCodeForWidth initialCodeBits parameters.maximumCodeBits
  pure { state with
    codeBits := initialCodeBits, maximumCurrentCode, nextCode := firstBlockCode,
    previousCode := none, forceRefill := true }

/--
The prefix walk of a code: its expansion on the stack, and the literal it ends at.

`traversed` is refused before the fuel is used up.
-/
def walk (parameters : LzwParameters) (state : LzwState) :
    Nat → Nat → Nat → Bytes → Work (Nat × Bytes)
  | 0, _, code, expansion => pure (code, expansion)
  | fuel + 1, traversed, code, expansion =>
      if code > 255 then do
        checkpoint 1
        let traversed ← orRefuse (checkedAdd 64 traversed 1) "dictionary traversal count overflows"
        if traversed > parameters.dictionaryEntries then
          refuse "dictionary prefix chain contains a cycle"
        else if code ≥ state.nextCode then
          refuse "dictionary prefix references an unavailable code"
        else do
          let suffix ← orRefuse state.suffixes[code]? "dictionary suffix is unavailable"
          let previous ← orRefuse state.prefixes[code]? "dictionary prefix is unavailable"
          walk parameters state fuel traversed previous (suffix :: expansion)
      else
        pure (code, expansion)

/-- The expansion of a code after `previous`, and its first character. -/
def expand (parameters : LzwParameters) (state : LzwState) (encodedCode previous : Nat) :
    Work (UInt8 × Bytes) := do
  if encodedCode > state.nextCode then
    refuse "code references an uninitialized dictionary entry"
  else do
    let fuel := parameters.dictionaryEntries + 1
    let (code, expansion) ←
      -- the entry that is about to be added: the previous expansion and its own first character
      if encodedCode = state.nextCode then
        walk parameters state fuel 0 previous [state.firstCharacter]
      else
        walk parameters state fuel 0 encodedCode []
    let literal ← orRefuse (tryFrom 8 code) "expanded literal is not representable"
    pure (UInt8.ofNat literal, UInt8.ofNat literal :: expansion)

/-- Add the entry of the code that comes after `previous`, while there is room for it. -/
def addEntry (parameters : LzwParameters) (first : UInt8) (previous : Nat) (state : LzwState) :
    Work LzwState :=
  if state.nextCode < parameters.maximumCodes then do
    let prefixes ← setAt state.prefixes state.nextCode previous
      "next dictionary prefix is unavailable"
    let suffixes ← setAt state.suffixes state.nextCode first "next dictionary suffix is unavailable"
    let nextCode ← orRefuse (checkedAdd 32 state.nextCode 1) "next dictionary code overflows"
    pure { state with prefixes, suffixes, nextCode }
  else
    pure state

end LzwState

/-! ### Decoding -/

section Decoding

variable {σ : Type} (writer : Writer σ) (limits : Limits)

/-- Write these chunks of the expansion. -/
def writeChunks : List Bytes → Extracting σ Unit
  | [] => pure ()
  | chunk :: rest => do
      checkpoint chunk.length
      Extraction.writeOutput writer limits chunk
      writeChunks rest

def writeReversed (expansion : Bytes) : Extracting σ Unit :=
  writeChunks writer limits (chunks controlChunkSize expansion)

/-- The first code after a reset. -/
def firstLiteral (encodedCode : Nat) (state : LzwState) : Extracting σ LzwState := do
  if encodedCode > 255 then
    (refuse "first code after reset is not a literal" : Work LzwState)
  else do
    let literal ← orRefuse (tryFrom 8 encodedCode) "literal code is not representable"
    checkpoint 1
    Extraction.writeOutput writer limits [UInt8.ofNat literal]
    pure { state with firstCharacter := UInt8.ofNat literal, previousCode := some encodedCode }

/-- A code after a code. -/
def nextExpansion (parameters : LzwParameters) (encodedCode previous : Nat) (state : LzwState) :
    Extracting σ LzwState := do
  let (first, expansion) ← state.expand parameters encodedCode previous
  writeReversed writer limits expansion
  let state ← state.addEntry parameters first previous
  pure { state with firstCharacter := first, previousCode := some encodedCode }

/-- What a round does with the code it has read. -/
def decodeCode (parameters : LzwParameters) (encodedCode : Nat) (state : LzwState) :
    Extracting σ LzwState :=
  if parameters.blockMode ∧ encodedCode = clearCode then
    state.clear parameters
  else
    match state.previousCode with
    | none => firstLiteral writer limits encodedCode state
    | some previous => nextExpansion writer limits parameters encodedCode previous state

/-- One round of the loop; it breaks when there is no code left. -/
def decodeRound (parameters : LzwParameters) (state : LzwState) :
    Extracting σ (LzwState ⊕ Unit) := do
  checkpoint 1
  let state ← state.widen parameters
  let (encodedCode, reader) ← state.reader.nextCode state.codeBits state.forceRefill
  match encodedCode with
  | none => pure (.inr ())
  | some encodedCode =>
      Sum.inl <$> decodeCode writer limits parameters encodedCode
        { state with reader, forceRefill := false }

/--
The loop of `decode_lzw`.

Every round but the last reads a code, so with more fuel than there are bits the loop ends
before the fuel does.
-/
def decodeLoop (parameters : LzwParameters) : Nat → LzwState → Extracting σ Unit
  | 0, _ => pure ()
  | fuel + 1, state => do
      match (← decodeRound writer limits parameters state) with
      | .inl state => decodeLoop parameters fuel state
      | .inr () => pure ()

/-- The locals before the loop. -/
def initialState (input : Bytes) (maximumCodeBits dictionaryEntries : Nat) (blockMode : Bool) :
    Work (LzwParameters × LzwState) := do
  let suffixes ← fillLiterals (List.range 256) (List.replicate dictionaryEntries 0)
  let maximumCodes ← orRefuse (checkedShl 32 1 maximumCodeBits) "maximum code count overflows"
  let maximumCurrentCode ← maximumCodeForWidth initialCodeBits maximumCodeBits
  pure (⟨maximumCodeBits, blockMode, dictionaryEntries, maximumCodes⟩, {
    prefixes := List.replicate dictionaryEntries 0
    suffixes
    codeBits := initialCodeBits
    maximumCurrentCode
    nextCode := if blockMode then firstBlockCode else firstPlainCode
    previousCode := none
    firstCharacter := 0
    reader := .new input
    forceRefill := false })

def decodeLzw (input : Bytes) (maximumCodeBits : Nat) (blockMode : Bool) (dictionaryEntries : Nat) :
    Extracting σ Unit := do
  let (parameters, state) ← initialState input maximumCodeBits dictionaryEntries blockMode
  decodeLoop writer limits parameters (8 * input.length + 1) state

/-- `UnixCompressLayout::extract`. -/
def extract (layout : UnixCompressLayout) (input : Bytes) : Extracting σ Unit := do
  checkLimit layout.dictionaryBytes limits.maxDictionaryBytes .dictionaryBytes
  checkpoint layout.dictionaryBytes
  if input.length < headerBytes then
    (refuse "validated payload range is unavailable" : Work Unit)
  else do
    let payload := input.drop headerBytes
    forEach (chunks controlChunkSize payload) fun chunk => checkpoint chunk.length
    decodeLzw writer limits payload layout.maximumCodeBits layout.blockMode layout.dictionaryEntries
    Extraction.finishFrame false

end Decoding

end UnixCompress

end Un7z
