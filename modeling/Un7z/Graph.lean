/-
Validation and scheduling of a folder's coder graph, `graph.rs`.

Ports are numbered through the whole folder, so a table of owners turns a bind pair
into an edge between coders.  `validateFolderGraph` checks that the bind pairs and the
packed indices use every input exactly once and every output but one, and
`topologicalOrder` is Kahn's algorithm on the edges: a coder enters the queue when its
last dependency has left it.
-/
import Un7z.Model
import Un7z.Raw

namespace Un7z

namespace Graph

structure ValidatedGraph where
  bindPairs : List BindPair
  packedInputIndices : List Nat
  rootOutputIndex : Nat
  topologicalCoderOrder : List Nat
  deriving DecidableEq, Repr

def falseVector (count : Nat) : List Bool := List.replicate count false

def ownerForPort (owners : List Nat) (index : Nat) (detail : String) : Work Nat :=
  orFormat owners[index]? detail

/-! ### Bind pairs -/

/-- Mark a port that no earlier pair has used. -/
def markPort (used : List Bool) (index : Nat) (rangeDetail duplicateDetail : String) :
    Work (List Bool) := do
  let isUsed ← orFormat used[index]? rangeDetail
  if isUsed then
    formatErr duplicateDetail
  else
    pure (used.set index true)

def validateBindPair (raw : RawBindPair) (inputUsed outputUsed : List Bool) :
    Work (BindPair × List Bool × List Bool) := do
  let inputUsed ← markPort inputUsed raw.input
    "bind-pair input index is out of range" "bind-pair input index is duplicated"
  let outputUsed ← markPort outputUsed raw.output
    "bind-pair output index is out of range" "bind-pair output index is duplicated"
  pure (⟨raw.input, raw.output⟩, inputUsed, outputUsed)

def validateBindPairs :
    List RawBindPair → List Bool → List Bool → Work (List BindPair × List Bool × List Bool)
  | [], inputUsed, outputUsed => pure ([], inputUsed, outputUsed)
  | raw :: rest, inputUsed, outputUsed => do
      let (pair, inputUsed, outputUsed) ← validateBindPair raw inputUsed outputUsed
      let (pairs, used) ← validateBindPairs rest inputUsed outputUsed
      pure (pair :: pairs, used)

/-! ### Kahn's algorithm -/

/-- The edges between coders, and how many lead into each. -/
def collectEdges (inputOwners outputOwners : List Nat) :
    List RawBindPair → List Nat → Work (List (Nat × Nat) × List Nat)
  | [], indegree => pure ([], indegree)
  | pair :: pairs, indegree => do
      let source ← ownerForPort outputOwners pair.output "bind-pair output index is out of range"
      let destination ← ownerForPort inputOwners pair.input "bind-pair input index is out of range"
      let degree ← orFormat indegree[destination]? "coder dependency index is out of range"
      let degree ← orFormat (checkedAdd 64 degree 1) "coder dependency count overflows"
      let (edges, indegree) ←
        collectEdges inputOwners outputOwners pairs (indegree.set destination degree)
      pure ((source, destination) :: edges, indegree)

/-- The coders that depend on nothing. -/
def initialReady (indegree : List Nat) : List Nat :=
  (List.range indegree.length).filter fun index => indegree[index]? = some 0

/-- Take the edges out of `coder` away; what that frees joins the queue, in order. -/
def relaxEdges (coder : Nat) : List (Nat × Nat) → List Nat → Work (List Nat × List Nat)
  | [], indegree => pure ([], indegree)
  | (source, destination) :: edges, indegree => do
      checkpoint 1
      if source ≠ coder then
        relaxEdges coder edges indegree
      else
        let degree ← orFormat indegree[destination]? "coder dependency index is out of range"
        let degree ← orFormat (checkedSub degree 1) "coder dependency count underflows"
        let (freed, indegree) ← relaxEdges coder edges (indegree.set destination degree)
        pure (if degree = 0 then destination :: freed else freed, indegree)

/--
The queue loop of `topological_order`, on the part of `ready` from `cursor` on.

Each coder is queued at most once, so `fuel`, the number of coders, is never used up
with the queue nonempty: `kahn_queue_empty`.
-/
def kahn (edges : List (Nat × Nat)) : Nat → List Nat → List Nat → Work (List Nat × List Nat)
  | _, [], _ => pure ([], [])
  | 0, queue, _ => pure ([], queue)
  | fuel + 1, coder :: queue, indegree => do
      checkpoint 1
      let (freed, indegree) ← relaxEdges coder edges indegree
      let (order, rest) ← kahn edges fuel (queue ++ freed) indegree
      pure (coder :: order, rest)

def topologicalOrder (coderCount : Nat) (inputOwners outputOwners : List Nat)
    (bindPairs : List RawBindPair) : Work (List Nat) := do
  let (edges, indegree) ←
    collectEdges inputOwners outputOwners bindPairs (List.replicate coderCount 0)
  let (order, _) ← kahn edges coderCount (initialReady indegree) indegree
  if order.length ≠ coderCount then
    formatErr "folder coder graph contains a cycle"
  else
    pure order

/-! ### The graph -/

/-- The owner of every port, coder by coder. -/
def collectOwners : Nat → List RawCoder → Work (List Nat × List Nat)
  | _, [] => pure ([], [])
  | coderIndex, coder :: coders => do
      let portCount ← orFormat (checkedAdd 64 coder.inputStreams coder.outputStreams)
        "coder port count overflows"
      checkpoint portCount
      let (inputOwners, outputOwners) ← collectOwners (coderIndex + 1) coders
      pure (List.replicate coder.inputStreams coderIndex ++ inputOwners,
        List.replicate coder.outputStreams coderIndex ++ outputOwners)

/-- The scan for the unbound output, from port `index` on. -/
def findRoot : Nat → List Bool → Option Nat → Work (Option Nat)
  | _, [], rootOutput => pure rootOutput
  | index, bound :: rest, rootOutput =>
      if !bound then
        if rootOutput.isSome then
          formatErr "folder has multiple root output streams"
        else
          findRoot (index + 1) rest (some index)
      else
        findRoot (index + 1) rest rootOutput

def packedIndices (raw : RawFolder) (inputUsed : List Bool) : Work (List Nat) :=
  match raw.packedIndices with
  | some indices => pure indices
  | none => do
      let index ← orFormat (inputUsed.findIdx? (!·)) "folder has no unbound packed input"
      pure [index]

def markPacked (inputUsed : List Bool) : List Nat → List Bool → Work (List Bool)
  | [], packedUsed => pure packedUsed
  | index :: rest, packedUsed => do
      let isPacked ← orFormat packedUsed[index]? "packed-input index is out of range"
      if isPacked then
        formatErr "packed-input index is duplicated"
      else
        let isBound ← orFormat inputUsed[index]? "packed-input index is out of range"
        if isBound then
          formatErr "packed-input index is already bound"
        else
          markPacked inputUsed rest (packedUsed.set index true)

def checkPartition (inputUsed packedUsed : List Bool) : Work Unit :=
  if (inputUsed.zip packedUsed).any fun (bound, packed) => bound == packed then
    formatErr "folder inputs are not partitioned into bound and packed streams"
  else
    pure ()

def validateFolderGraph (raw : RawFolder) : Work ValidatedGraph := do
  let portCount ← orFormat (checkedAdd 64 raw.inputStreams raw.outputStreams)
    "folder port count overflows"
  checkpoint portCount
  let (inputOwners, outputOwners) ← collectOwners 0 raw.coders
  if inputOwners.length ≠ raw.inputStreams ∨ outputOwners.length ≠ raw.outputStreams then
    formatErr "folder stream-owner totals are inconsistent"
  else
    let (bindPairs, inputUsed, outputUsed) ← validateBindPairs raw.bindPairs
      (falseVector raw.inputStreams) (falseVector raw.outputStreams)
    let rootOutput ← findRoot 0 outputUsed none
    let rootOutputIndex ← orFormat rootOutput "folder has no root output stream"
    let packed ← packedIndices raw inputUsed
    if packed.length ≠ raw.packedStreams then
      formatErr "folder packed-input count is inconsistent"
    else
      let packedUsed ← markPacked inputUsed packed (falseVector raw.inputStreams)
      checkPartition inputUsed packedUsed
      let order ← topologicalOrder raw.coders.length inputOwners outputOwners raw.bindPairs
      pure ⟨bindPairs, packed, rootOutputIndex, order⟩

end Graph

end Un7z
