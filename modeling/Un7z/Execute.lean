/-
Execution of a validated folder graph, `execute.rs`.

Buffers move through a table of input ports and a table of output ports.  A coder takes
its inputs out of the first, in port order, and what it makes goes to the input its
output is bound to, or to the second table when it is bound to none.

The decoders behind a method identifier are a parameter, `Codecs`: the executor hands
them bytes and takes bytes back, and nothing here looks inside.
-/
import Un7z.Validate

namespace Un7z

open Metered (fail)

/-! ### Methods -/

def methodCopy : Bytes := [0x00]
def methodDelta : Bytes := [0x03]
def methodBcj : Bytes := [0x03, 0x03, 0x01, 0x03]
def methodBcj2 : Bytes := [0x03, 0x03, 0x01, 0x1b]
def methodPpc : Bytes := [0x03, 0x03, 0x02, 0x05]
def methodArm : Bytes := [0x03, 0x03, 0x05, 0x01]
def methodSparc : Bytes := [0x03, 0x03, 0x08, 0x05]
def methodArm64 : Bytes := [0x0a]
def methodDeflate : Bytes := [0x04, 0x01, 0x08]
def methodBzip2 : Bytes := [0x04, 0x02, 0x02]
def methodZstd : Bytes := [0x04, 0xf7, 0x11, 0x01]
def methodBrotli : Bytes := [0x04, 0xf7, 0x11, 0x02]
def methodLz4 : Bytes := [0x04, 0xf7, 0x11, 0x04]
def methodIa64 : Bytes := [0x03, 0x03, 0x04, 0x01]
def methodArmThumb : Bytes := [0x03, 0x03, 0x07, 0x01]
def methodRiscv : Bytes := [0x0b]
def methodSwap2 : Bytes := [0x02, 0x03, 0x02]
def methodSwap4 : Bytes := [0x02, 0x03, 0x04]

def branchMethods : List Bytes :=
  [methodBcj, methodPpc, methodArm, methodArm64, methodSparc, methodIa64, methodArmThumb,
    methodRiscv]

def swapMethods : List Bytes := [methodSwap2, methodSwap4]

/-- The methods that `decode_filter` decodes in place. -/
def filterMethods : List Bytes := methodDelta :: branchMethods ++ swapMethods

/-- A password is the UTF-16LE bytes the key derivation hashes. -/
abbrev Password := Bytes

/-- The decoders of `decode/`, one field for each `decode_*` function. -/
structure Codecs where
  lzma : (input properties : Bytes) → (expected : Option Nat) → (maximum : Nat) → Work Bytes
  lzma2 : (input properties : Bytes) → (expected : Option Nat) → (maximum : Nat) → Work Bytes
  ppmd : (input properties : Bytes) → (expected : Option Nat) → (maximum : Nat) → Limits →
    Work Bytes
  filter : (method properties input : Bytes) → Work Bytes
  bcj2 : (inputs : List Bytes) → (properties : Bytes) → (expected : Option Nat) →
    (maximum : Nat) → Work Bytes
  deflate : (input : Bytes) → (expected : Option Nat) → (maximum : Nat) → Limits → Work Bytes
  deflate64 : (input : Bytes) → (expected : Option Nat) → (maximum : Nat) → Limits → Work Bytes
  bzip2 : (input : Bytes) → (expected : Option Nat) → (maximum : Nat) → Limits → Work Bytes
  brotli : (input : Bytes) → (expected : Option Nat) → (maximum : Nat) → Limits → Work Bytes
  lz4 : (input : Bytes) → (expected : Option Nat) → (maximum : Nat) → Limits → Work Bytes
  zstd : (input : Bytes) → (expected : Option Nat) → (maximum : Nat) → Limits → Work Bytes
  aes : (input properties : Bytes) → (expected : Option Nat) → (maximum : Nat) → Limits →
    Option Password → Work Bytes

namespace Execute

structure DecodedFolder where
  bytes : Bytes
  crcMismatch : Bool
  encrypted : Bool
  deriving DecidableEq, Repr

/-! ### Coders -/

def validateArity (coder : Coder) (inputs outputs : Nat) : Work Unit :=
  if coder.inputCount = inputs ∧ coder.outputCount = outputs then
    pure ()
  else
    formatErr "coder stream arity does not match its method"

/-- `if !valid { return Err(format_error(detail)) }` on the properties of a coder. -/
def requireProperties (valid : Bool) (detail : String) : Work Unit :=
  if valid then pure () else formatErr detail

def validateCoderRegistration (coder : Coder) : Work Unit :=
  let method := coder.methodId
  if coder.outputCount ≠ 1 then
    fail (.unsupportedFeature "multi-output-coder")
  else if method = methodCopy then do
    validateArity coder 1 1
    requireProperties coder.properties.isEmpty "Copy coder properties must be empty"
  else if method = methodLzma then do
    validateArity coder 1 1
    requireProperties (coder.properties.length == 5)
      "LZMA properties must contain exactly five bytes"
  else if method = methodLzma2 then do
    validateArity coder 1 1
    requireProperties (coder.properties.length == 1)
      "LZMA2 properties must contain exactly one byte"
  else if method = methodPpmd then do
    validateArity coder 1 1
    let _ ← ofExcept (parsePpmdProperties coder.properties)
    pure ()
  else if method = methodDelta then do
    validateArity coder 1 1
    requireProperties (coder.properties.length == 1)
      "Delta properties must contain exactly one byte"
  else if method ∈ branchMethods then do
    validateArity coder 1 1
    requireProperties (coder.properties.length == 0 || coder.properties.length == 4)
      "branch filter properties must be empty or four bytes"
  else if method = methodBcj2 then do
    validateArity coder 4 1
    requireProperties coder.properties.isEmpty "BCJ2 properties must be empty"
  else if method ∈ swapMethods then do
    validateArity coder 1 1
    requireProperties coder.properties.isEmpty "Swap filter properties must be empty"
  else if method ∈ [methodDeflate, methodDeflate64, methodBzip2] then do
    validateArity coder 1 1
    requireProperties coder.properties.isEmpty "framed compression coder properties must be empty"
  else if method ∈ [methodBrotli, methodLz4, methodZstd] then
    -- the properties of these are opaque: the framed stream describes itself
    validateArity coder 1 1
  else if method = methodAes then
    validateArity coder 1 1
  else
    fail (.unsupportedMethod method)

def permitsUnknownOutput (method : Bytes) : Bool :=
  method ∈ [methodCopy, methodDelta, methodLzma, methodLzma2, methodBcj, methodBcj2, methodPpc,
    methodArm, methodArm64, methodSparc, methodIa64, methodArmThumb, methodRiscv, methodSwap2,
    methodSwap4, methodDeflate, methodDeflate64]

def takeSingleInput (inputs : List Bytes) : Work Bytes :=
  if inputs.length ≠ 1 then
    formatErr "single-input coder received the wrong stream count"
  else
    orFormat inputs.getLast? "single-input coder stream is missing"

/-- A coder of one input and one output. -/
def withSingleInput (coder : Coder) (inputs : List Bytes) (decode : Bytes → Work Bytes) :
    Work Bytes := do
  validateArity coder 1 1
  let input ← takeSingleInput inputs
  decode input

def decodeCopy (coder : Coder) (inputs : List Bytes) (maximum : Nat) : Work Bytes := do
  validateArity coder 1 1
  requireProperties coder.properties.isEmpty "Copy coder properties must be empty"
  let input ← takeSingleInput inputs
  checkLimit input.length maximum .totalOutputBytes
  pure input

/-- The dispatch of `decode_coder` on the method. -/
def decodeMethod (codecs : Codecs) (coder : Coder) (inputs : List Bytes) (expected : Option Nat)
    (maximum : Nat) (limits : Limits) (password : Option Password) : Work Bytes :=
  let method := coder.methodId
  if method = methodCopy then
    decodeCopy coder inputs maximum
  else if method = methodLzma then
    withSingleInput coder inputs (codecs.lzma · coder.properties expected maximum)
  else if method = methodLzma2 then
    withSingleInput coder inputs (codecs.lzma2 · coder.properties expected maximum)
  else if method = methodPpmd then
    withSingleInput coder inputs (codecs.ppmd · coder.properties expected maximum limits)
  else if method ∈ filterMethods then
    withSingleInput coder inputs fun input => do
      checkLimit input.length maximum .totalOutputBytes
      codecs.filter method coder.properties input
  else if method = methodBcj2 then do
    validateArity coder 4 1
    codecs.bcj2 inputs coder.properties expected maximum
  else if method = methodDeflate then
    withSingleInput coder inputs (codecs.deflate · expected maximum limits)
  else if method = methodDeflate64 then
    withSingleInput coder inputs (codecs.deflate64 · expected maximum limits)
  else if method = methodBzip2 then
    withSingleInput coder inputs (codecs.bzip2 · expected maximum limits)
  else if method = methodBrotli then
    withSingleInput coder inputs (codecs.brotli · expected maximum limits)
  else if method = methodLz4 then
    withSingleInput coder inputs (codecs.lz4 · expected maximum limits)
  else if method = methodZstd then
    withSingleInput coder inputs (codecs.zstd · expected maximum limits)
  else if method = methodAes then
    withSingleInput coder inputs
      (codecs.aes · coder.properties expected maximum limits password)
  else
    fail (.unsupportedMethod method)

def decodeCoder (codecs : Codecs) (coder : Coder) (inputs : List Bytes) (expected : Option Nat)
    (maximum : Nat) (limits : Limits) (password : Option Password) : Work Bytes :=
  if expected.isNone ∧ !permitsUnknownOutput coder.methodId then
    fail (.unsupportedFeature "coder-unknown-unpacked-size")
  else do
    let output ← decodeMethod codecs coder inputs expected maximum limits password
    checkLimit output.length maximum .totalOutputBytes
    if expected.any (· ≠ output.length) then
      formatErr "decoded coder output size does not match its declaration"
    else
      pure output

/-! ### Ports -/

def totalPortCount (count : Coder → Nat) : List Coder → Nat → Work Nat
  | [], total => pure total
  | coder :: coders, total => do
      let total ← orFormat (checkedAdd 64 total (count coder))
        "folder port count overflows during execution"
      totalPortCount count coders total

def emptyPorts (count : Nat) : List (Option Bytes) := List.replicate count none

def copyInput (bytes : Bytes) : Work Bytes := copyBytes bytes

/-- The input port each output is bound to. -/
def outputDestinations : List BindPair → List (Option Nat) → Work (List (Option Nat))
  | [], destinations => pure destinations
  | pair :: pairs, destinations => do
      checkpoint 1
      let destination ← orFormat destinations[pair.outputIndex]?
        "bound output index is out of range"
      if destination.isSome then
        formatErr "validated output binding is duplicated"
      else
        outputDestinations pairs (destinations.set pair.outputIndex (some pair.inputIndex))

/-- Put bytes into an empty port. -/
def populate (ports : List (Option Bytes)) (index : Nat) (bytes : Bytes)
    (rangeDetail duplicateDetail : String) : Work (List (Option Bytes)) := do
  let port ← orFormat ports[index]? rangeDetail
  if port.isSome then
    formatErr duplicateDetail
  else
    pure (ports.set index (some bytes))

/-- Take the bytes out of a filled port. -/
def takePort (ports : List (Option Bytes)) (index : Nat) (rangeDetail emptyDetail : String) :
    Work (Bytes × List (Option Bytes)) := do
  let port ← orFormat ports[index]? rangeDetail
  let bytes ← orFormat port emptyDetail
  pure (bytes, ports.set index none)

def checkPackedCrc (crc : Option UInt32) (bytes : Bytes) : Work Unit :=
  match crc with
  | some expected => do
      let actual ← checksum bytes
      if actual ≠ expected then fail (.checksum .packedStream none) else pure ()
  | none => pure ()

def packedSize (stream : PackStream) : Work Nat :=
  match stream.size with
  | some size => pure size
  | none => fail (.unsupportedFeature "unknown-packed-stream-size")

/-- The bytes of the packed stream of a folder with this ordinal, checked against its CRC. -/
def packedBytes (archiveBytes : Bytes) (streams : StreamsInfo) (folder : Folder)
    (ordinal : Nat) : Work Bytes := do
  let streamIndex ← orFormat (checkedAdd 64 folder.firstPackStream ordinal)
    "packed-stream index overflows during execution"
  let stream ← orFormat streams.packStreams[streamIndex]?
    "packed-stream index is out of range during execution"
  let size ← packedSize stream
  let bytes ← checkedRange archiveBytes stream.offset size
    "packed-stream range overflows during execution"
    "packed-stream range is truncated during execution"
  checkPackedCrc stream.crc bytes
  pure bytes

/-- The loop of `load_packed_inputs`, from the packed stream `ordinal` on. -/
def loadPackedInputs (archiveBytes : Bytes) (streams : StreamsInfo) (folder : Folder) :
    Nat → List Nat → List (Option Bytes) → Work (List (Option Bytes))
  | _, [], ports => pure ports
  | ordinal, inputIndex :: rest, ports => do
      checkpoint 1
      let bytes ← packedBytes archiveBytes streams folder ordinal
      let port ← orFormat ports[inputIndex]? "packed-input port is out of range during execution"
      if port.isSome then
        formatErr "packed-input port was populated more than once"
      else
        let copy ← copyInput bytes
        loadPackedInputs archiveBytes streams folder (ordinal + 1) rest
          (ports.set inputIndex (some copy))

/-! ### The coder loop -/

/-- The tables of `decode_folder`. -/
structure Ports where
  inputs : List (Option Bytes)
  outputs : List (Option Bytes)
  destinations : List (Option Nat)
  deriving DecidableEq, Repr

/-- Take the inputs of a coder out of their ports, from `relative` on. -/
def takeInputs (inputStart : Nat) :
    Nat → Nat → List (Option Bytes) → Work (List Bytes × List (Option Bytes))
  | 0, _, ports => pure ([], ports)
  | count + 1, relative, ports => do
      let index ← orFormat (checkedAdd 64 inputStart relative)
        "coder input index overflows during execution"
      let (input, ports) ← takePort ports index "coder input index is out of range during execution"
        "coder input stream is unavailable during execution"
      let (inputs, ports) ← takeInputs inputStart count (relative + 1) ports
      pure (input :: inputs, ports)

/-- Hand the output of a coder on to where it belongs. -/
def deliverOutput (ports : Ports) (outputSlot : Nat) (output : Bytes) : Work Ports := do
  let destination ← orFormat ports.destinations[outputSlot]?
    "coder output index is out of range during execution"
  let destinations := ports.destinations.set outputSlot none
  match destination with
  | some destination => do
      let inputs ← populate ports.inputs destination output
        "bound input index is out of range during execution"
        "bound input stream was populated more than once"
      pure ⟨inputs, ports.outputs, destinations⟩
  | none => do
      let outputs ← populate ports.outputs outputSlot output
        "root output index is out of range during execution"
        "root output stream was populated more than once"
      pure ⟨ports.inputs, outputs, destinations⟩

/-- The most a coder may produce: only the root output counts against the caller's maximum. -/
def coderMaximum (folder : Folder) (limits : Limits) (maximumOutput outputIndex : Nat) : Nat :=
  if outputIndex = folder.rootOutputIndex then maximumOutput else limits.maxTotalOutputBytes

def executeCoder (codecs : Codecs) (folder : Folder) (password : Option Password) (limits : Limits)
    (maximumOutput : Nat) (ports : Ports) (coderIndex : Nat) : Work Ports := do
  checkpoint 1
  let coder ← orFormat folder.coders[coderIndex]? "coder index is out of range during execution"
  if coder.outputCount ≠ 1 then
    fail (.unsupportedFeature "multi-output-coder")
  else
    let (inputs, inputPorts) ← takeInputs coder.inputStart coder.inputCount 0 ports.inputs
    let expected ← orFormat folder.unpackSizes[coder.outputStart]?
      "coder output size is missing during execution"
    let output ← decodeCoder codecs coder inputs expected
      (coderMaximum folder limits maximumOutput coder.outputStart) limits password
    deliverOutput { ports with inputs := inputPorts } coder.outputStart output

def executeCoders (codecs : Codecs) (folder : Folder) (password : Option Password)
    (limits : Limits) (maximumOutput : Nat) : List Nat → Ports → Work Ports
  | [], ports => pure ports
  | coderIndex :: rest, ports => do
      let ports ← executeCoder codecs folder password limits maximumOutput ports coderIndex
      executeCoders codecs folder password limits maximumOutput rest ports

/-- The bytes at the root, once every input is used and no other output is left. -/
def takeRoot (folder : Folder) (ports : Ports) : Work Bytes :=
  if ports.inputs.any Option.isSome then
    formatErr "folder execution left an input stream unconsumed"
  else do
    let (bytes, outputs) ← takePort ports.outputs folder.rootOutputIndex
      "root output index is out of range during execution"
      "root output stream is unavailable after execution"
    if outputs.any Option.isSome then
      formatErr "folder execution produced multiple root streams"
    else
      pure bytes

def crcMismatch (crc : Option UInt32) (bytes : Bytes) : Work Bool :=
  match crc with
  | some expected => (· ≠ expected) <$> checksum bytes
  | none => pure false

def checkRootSize (size : Option Nat) (maximumOutput : Nat) : Work Unit :=
  match size with
  | some size => checkLimit size maximumOutput .totalOutputBytes
  | none => pure ()

/-- What `decode_folder` checks before it touches a byte. -/
def admitFolder (folder : Folder) (limits : Limits) (maximumOutput : Nat) : Work Unit := do
  checkLimit folder.dictionaryBytes limits.maxDictionaryBytes .dictionaryBytes
  let rootSize ← orFormat folder.unpackSizes[folder.rootOutputIndex]?
    "root output size is missing during execution"
  checkRootSize rootSize maximumOutput
  forEach folder.coders fun coder => do
    validateCoderRegistration coder
    checkpoint 1

/-- The tables as they are before the first coder runs. -/
def loadPorts (archiveBytes : Bytes) (streams : StreamsInfo) (folder : Folder) : Work Ports := do
  let inputCount ← totalPortCount (·.inputCount) folder.coders 0
  let outputCount ← totalPortCount (·.outputCount) folder.coders 0
  let destinations ← outputDestinations folder.bindPairs (List.replicate outputCount none)
  let inputs ← loadPackedInputs archiveBytes streams folder 0 folder.packedInputIndices
    (emptyPorts inputCount)
  pure ⟨inputs, emptyPorts outputCount, destinations⟩

def decodeFolder (codecs : Codecs) (archiveBytes : Bytes) (streams : StreamsInfo)
    (folderIndex : Nat) (password : Option Password) (limits : Limits) (maximumOutput : Nat) :
    Work DecodedFolder := do
  let folder ← orFormat streams.folders[folderIndex]?
    "folder index is out of range during execution"
  admitFolder folder limits maximumOutput
  let ports ← loadPorts archiveBytes streams folder
  let ports ← executeCoders codecs folder password limits maximumOutput
    folder.topologicalCoderOrder ports
  let bytes ← takeRoot folder ports
  let mismatch ← crcMismatch folder.crc bytes
  pure ⟨bytes, mismatch, folder.coders.any (·.methodId == methodAes)⟩

end Execute

end Un7z
