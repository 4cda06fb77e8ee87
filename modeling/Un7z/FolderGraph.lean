/-
What a folder computes.

A folder is a graph of coders.  An input port takes the value of the output it is bound
to, or the bytes of a pack stream, and a coder is applied to its inputs in port order.
`Folder.evaluate` is the value at the root of that graph, by recursion, with no port
table and no order of execution in it.

`Folder.WellFormed` is what validation guarantees of the graph, `Folder.Schedule` says
that an order of the coders respects it, and `Folder.Failure` lists the ways in which
executing such a folder may go wrong.
-/
import Un7z.Execute
import Un7z.Lib.Dataflow
import Un7z.Lib.Tiling

namespace Un7z

open Tiling (tile points)

namespace Coder

/-- The input ports of a coder, as a range. -/
def inputRange (coder : Coder) : Nat × Nat :=
  (coder.inputStart, coder.inputStart + coder.inputCount)

/-- The input ports of a coder, in order. -/
def inputPorts (coder : Coder) : List Nat := List.range' coder.inputStart coder.inputCount

/-- The output ports of a coder, as a range. -/
def outputRange (coder : Coder) : Nat × Nat :=
  (coder.outputStart, coder.outputStart + coder.outputCount)

end Coder

namespace Folder

def inputCount (folder : Folder) : Nat := (folder.coders.map (·.inputCount)).sum

def outputCount (folder : Folder) : Nat := (folder.coders.map (·.outputCount)).sum

/-! ### The graph -/

/-- The coder an output port belongs to. -/
def coderOfOutput (folder : Folder) (output : Nat) : Option Nat :=
  folder.coders.findIdx? fun coder =>
    coder.outputStart ≤ output ∧ output < coder.outputStart + coder.outputCount

/-- The bytes of an input port that a packed index names. -/
def packedInput (archiveBytes : Bytes) (streams : StreamsInfo) (folder : Folder) (input : Nat) :
    Option Bytes := do
  let ordinal ← folder.packedInputIndices.idxOf? input
  let stream ← streams.packStreams[folder.firstPackStream + ordinal]?
  let size ← stream.size
  pure ((archiveBytes.drop stream.offset).take size)

/-- The arguments of `decode_folder` that the coders see. -/
structure Context where
  codecs : Codecs
  archiveBytes : Bytes
  streams : StreamsInfo
  password : Option Password
  limits : Limits
  maximumOutput : Nat

/-- `decode_folder` with these arguments. -/
def Context.decodeFolder (context : Context) (index : Nat) : Work Execute.DecodedFolder :=
  Execute.decodeFolder context.codecs context.archiveBytes context.streams index context.password
    context.limits context.maximumOutput

/-- One coder of the folder on its inputs. -/
def decode (folder : Folder) (context : Context) (coder : Coder) (expected : Option Nat)
    (inputs : List Bytes) : Work Bytes :=
  Execute.decodeCoder context.codecs coder inputs expected
    (Execute.coderMaximum folder context.limits context.maximumOutput coder.outputStart)
    context.limits context.password

/-- The coders of a folder as nodes, and its input ports as slots. -/
def graph (folder : Folder) (context : Context) : Dataflow Nat Nat Bytes where
  inputs i := (folder.coders[i]?.map Coder.inputPorts).getD []
  source p := do
    let pair ← folder.bindPairs.find? (·.inputIndex = p)
    folder.coderOfOutput pair.outputIndex
  target i := do
    let coder ← folder.coders[i]?
    let pair ← folder.bindPairs.find? (·.outputIndex = coder.outputStart)
    pure pair.inputIndex
  external := packedInput context.archiveBytes context.streams folder
  apply i inputs := do
    let coder ← folder.coders[i]?
    let expected ← folder.unpackSizes[coder.outputStart]?
    (folder.decode context coder expected inputs).result.toOption

/-- **The value of a folder**: its graph, evaluated at the unbound output. -/
def evaluate (folder : Folder) (context : Context) : Option Bytes := do
  let root ← folder.coderOfOutput folder.rootOutputIndex
  (folder.graph context).evaluate folder.coders.length root

/-! ### Validated folders -/

/-- What `validate_folder` guarantees of the graph of a folder. -/
structure WellFormed (folder : Folder) : Prop where
  /-- Input ports are numbered through the coders, and so are output ports. -/
  inputs : folder.coders.map Coder.inputRange = tile 0 (folder.coders.map (·.inputCount))
  outputs : folder.coders.map Coder.outputRange = tile 0 (folder.coders.map (·.outputCount))
  inputs_lt : folder.inputCount < 2 ^ 64
  outputs_lt : folder.outputCount < 2 ^ 64
  /-- Every input is bound or packed, once. -/
  boundInputs : (folder.bindPairs.map (·.inputIndex) ++ folder.packedInputIndices).Perm
    (List.range folder.inputCount)
  /-- Every output is bound, once, but for the root. -/
  boundOutputs : (folder.bindPairs.map (·.outputIndex) ++ [folder.rootOutputIndex]).Perm
    (List.range folder.outputCount)
  sizes : folder.unpackSizes.length = folder.outputCount

/-- The pack streams of a folder are there, and lie inside the archive. -/
def Backed (folder : Folder) (streams : StreamsInfo) (archiveBytes : Bytes) : Prop :=
  ∀ k < folder.packedInputIndices.length, folder.firstPackStream + k < 2 ^ 64 ∧
    ∃ stream size, streams.packStreams[folder.firstPackStream + k]? = some stream ∧
      stream.size = some size ∧ stream.offset + size < 2 ^ 64 ∧
      stream.offset + size ≤ archiveBytes.length

/-- Coder `j` reads, through a bind pair, what coder `i` yields. -/
def Feeds (folder : Folder) (i j : Nat) : Prop :=
  ∃ source target pair, folder.coders[i]? = some source ∧ folder.coders[j]? = some target ∧
    pair ∈ folder.bindPairs ∧ pair.outputIndex ∈ points source.outputRange ∧
    pair.inputIndex ∈ points target.inputRange

/-- An order of the coders in which each comes after those that feed it. -/
structure Schedule (folder : Folder) (order : List Nat) : Prop where
  perm : order.Perm (List.range folder.coders.length)
  respects : ∀ before j after, order = before ++ j :: after → ∀ i, folder.Feeds i j → i ∈ before

/-! ### Failures -/

/-- A coder fails with this error on the values of its inputs. -/
def CoderFails (folder : Folder) (context : Context) (error : Error) : Prop :=
  ∃ i coder expected inputs, folder.coders[i]? = some coder ∧
    folder.unpackSizes[coder.outputStart]? = some expected ∧
    (folder.graph context).arguments folder.coders.length i = some inputs ∧
    (folder.decode context coder expected inputs).result = .error error

/-- The ways in which executing a folder may fail, under a control that may interrupt it. -/
inductive Failure (folder : Folder) (context : Context) (control : ParseControl) : Error → Prop
  /-- The control stops the run. -/
  | interrupted {error : Error} (h : control.Interrupts error) : Failure folder context control error
  /-- The coders need more memory than the limits allow. -/
  | dictionary (h : folder.dictionaryBytes > context.limits.maxDictionaryBytes) :
      Failure folder context control
        (.limitExceeded .dictionaryBytes folder.dictionaryBytes context.limits.maxDictionaryBytes)
  /-- The declared size of the folder is more than the caller accepts. -/
  | output {size : Nat} (hsize : folder.unpackSizes[folder.rootOutputIndex]? = some (some size))
      (h : size > context.maximumOutput) :
      Failure folder context control (.limitExceeded .totalOutputBytes size context.maximumOutput)
  /-- A coder that is not supported, or whose shape or properties do not fit its method. -/
  | registration {coder : Coder} {error : Error} (hmem : coder ∈ folder.coders)
      (h : (Execute.validateCoderRegistration coder).result = .error error) :
      Failure folder context control error
  /-- The bytes of a packed stream do not have its CRC. -/
  | packedCrc {k size : Nat} {stream : PackStream} {crc : UInt32}
      (hk : k < folder.packedInputIndices.length)
      (hstream : context.streams.packStreams[folder.firstPackStream + k]? = some stream)
      (hsize : stream.size = some size) (hcrc : stream.crc = some crc)
      (h : crc32 ((context.archiveBytes.drop stream.offset).take size) ≠ crc) :
      Failure folder context control (.checksum .packedStream none)
  | coder {error : Error} (h : folder.CoderFails context error) :
      Failure folder context control error

/-! ### Other orders -/

/-- The same folder, with its coders in another order. -/
def reschedule (folder : Folder) (order : List Nat) : Folder :=
  { folder with topologicalCoderOrder := order }

/-- The same arguments, with the coders of one folder in another order. -/
def Context.reschedule (context : Context) (index : Nat) (order : List Nat) : Context :=
  { context with
    streams := { context.streams with
      folders := context.streams.folders.modify index (Folder.reschedule · order) } }

end Folder

end Un7z
