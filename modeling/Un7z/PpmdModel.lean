/-
The rescaling of `decode/ppmd.rs`.

When the frequency of a state that was found becomes too large, all frequencies of its
context are halved.  The state comes to the front, the others are sorted in behind it by
their new frequencies, and those that have none left are dropped; a context that is left
with one state keeps it in itself.  All of this happens in the array of the states, which
may move to a smaller block in the end.
-/
import Un7z.PpmdAllocator

namespace Un7z

namespace Ppmd

open Heap Metered

/-- What `rescale` reads and writes of `Model`. -/
structure Model where
  arena : Arena
  foundState : State
  orderFall : Nat
  deriving DecidableEq

/-- A function of the source that takes `&mut Model` and `&mut ParseControl`. -/
abbrev ModelM := StateT Model Work

/-- A function that takes the allocator and the heap of the model. -/
def onArena {α : Type} (m : ArenaM α) : ModelM α := fun model => do
  let (value, arena) ← ofExcept (m model.arena)
  pure (value, { model with arena })

/-- A function that takes the heap of the model. -/
def onStates {α : Type} (m : HeapM α) : ModelM α := onArena (onHeap m)

/-- `StateRef::decrement_frequency`. -/
def StateRef.decrementFrequency (saved : StateRef) (amount : UInt8) : Except Error StateRef := do
  let frequency ← orFormatError (checkedSub saved.frequency.toNat amount.toNat)
    "PPMd saved-state frequency underflows"
  pure { saved with frequency := UInt8.ofNat frequency }

/-- `while state.0 != first.0`: the found state comes to the front, and there are `oldCount`
states at most. -/
def moveToFront (first : State) (oldCount : Nat) : Nat → (state : State) → (moved : Nat) → ModelM State
  | 0, _, _ => do formatErr "PPMd found state does not come to the front"
  | fuel + 1, state, moved =>
      if state ≠ first then do
        checkpoint 1
        let moved ← ofExcept (add moved 1 "PPMd rescale movement count overflows")
        if moved ≥ oldCount then
          formatErr "PPMd found state is outside its context"
        else do
          let previous ← ofExcept state.decrement
          onStates (swapStates state previous)
          moveToFront first oldCount fuel previous moved
      else
        pure state

/-- `.checked_add(adder).ok_or_else(..)? >> 1` of a frequency. -/
def halved (adder : Nat) (frequency : UInt8) : Except Error UInt8 := do
  let sum ← orFormatError (checkedAdd 8 frequency.toNat adder)
    "PPMd state frequency overflows during rescale"
  pure (UInt8.ofNat (sum >>> 1))

/-- The loop that makes room for a saved state, from the back. -/
def shiftStates (first : State) (saved : StateRef) : Nat → (insertion : State) → HeapM State
  | 0, _ => throw (formatError "PPMd saved state is not inserted")
  | fuel + 1, insertion => do
      let source ← insertion.decrement
      insertion.copyFrom source
      let insertion := source
      if insertion = first then
        pure insertion
      else do
        let previous ← insertion.decrement
        let frequency ← read previous.frequency
        if saved.frequency ≤ frequency then
          pure insertion
        else
          shiftStates first saved fuel insertion

/-- The state is put in its place among those before it. -/
def insertState (first state : State) (oldCount : Nat) : HeapM Unit := do
  let previous ← state.decrement
  let frequency ← read state.frequency
  let frequencyBefore ← read previous.frequency
  if frequency > frequencyBefore then do
    let saved ← read (StateRef.fromState state)
    let insertion ← shiftStates first saved oldCount state
    insertion.setRef saved
  else
    pure ()

/-- The body of the loop over the other states: `state` is the one before, and what is returned
is the state and what is left of the escape frequency. -/
def rescaleState (context : Context) (first : State) (oldCount adder : Nat) (state : State)
    (escapeFrequency : Nat) : HeapM (State × Nat) := do
  let state ← state.increment
  let frequency ← read state.frequency
  let escapeFrequency ← sub escapeFrequency frequency.toNat "PPMd escape frequency underflows"
  let frequency ← halved adder frequency
  state.setFrequency frequency
  context.incrementSummFrequency frequency.toNat
  insertState first state oldCount
  pure (state, escapeFrequency)

/-- `while remaining != 0`. -/
def rescaleStates (context : Context) (first : State) (oldCount adder : Nat) :
    (remaining : Nat) → State → (escapeFrequency : Nat) → ModelM (State × Nat)
  | 0, state, escapeFrequency => pure (state, escapeFrequency)
  | remaining + 1, state, escapeFrequency => do
      checkpoint 1
      let (state, escapeFrequency) ←
        onStates (rescaleState context first oldCount adder state escapeFrequency)
      rescaleStates context first oldCount adder remaining state escapeFrequency

/-- `while state.frequency(&self.heap)? == 0`: how many states at the end have none left. -/
def countZeros (oldCount : Nat) : Nat → (state : State) → (zeroCount : Nat) → HeapM Nat
  | 0, _, _ => throw (formatError "PPMd states have no frequency")
  | fuel + 1, state, zeroCount => do
      let frequency ← read state.frequency
      if frequency = 0 then do
        let zeroCount ← add zeroCount 1 "PPMd zero-state count overflows"
        if zeroCount ≥ oldCount then
          throw (formatError "PPMd rescale removed every state")
        else do
          let state ← state.decrement
          countZeros oldCount fuel state zeroCount
      else
        pure zeroCount

/-- The loop that halves the frequency of the only state until the escape frequency is gone. -/
def halveSaved : Nat → StateRef → (escapeFrequency : Nat) → Except Error StateRef
  | 0, _, _ => .error (formatError "PPMd escape frequency does not go")
  | fuel + 1, saved, escapeFrequency => do
      let saved ← saved.decrementFrequency (saved.frequency >>> 1)
      let escapeFrequency := escapeFrequency >>> 1
      if escapeFrequency ≤ 1 then
        pure saved
      else
        halveSaved fuel saved escapeFrequency

/-- The branch of `rescale` that leaves one state, which goes into the context itself. -/
def collapse (context : Context) (first : State) (oldCount escapeFrequency : Nat) : ModelM Unit := do
  let saved ← onStates (read (StateRef.fromState first))
  let saved ← ofExcept (halveSaved (escapeFrequency + 1) saved escapeFrequency)
  let oldStats ← onStates (read context.stats)
  let oldUnits ← ofExcept (add oldCount 1 "PPMd rescale unit count overflows")
  onArena (freeUnits oldStats (oldUnits >>> 1))
  onStates (context.setOneState saved)
  let foundState ← ofExcept context.oneState
  modify fun model => { model with foundState }

/-- The end of `rescale` where more than one state is left. -/
def finishRescale (context : Context) (oldCount escapeFrequency : Nat) : ModelM Unit := do
  let escapeFrequency ← ofExcept (sub escapeFrequency (escapeFrequency >>> 1)
    "PPMd escape frequency underflows")
  onStates (context.incrementSummFrequency escapeFrequency)
  let oldUnits ← ofExcept (add oldCount 1 "PPMd old rescale unit count overflows")
  let count ← onStates (read context.numStats)
  let newUnits ← ofExcept (add count 1 "PPMd new rescale unit count overflows")
  if oldUnits >>> 1 ≠ newUnits >>> 1 then do
    let oldStats ← onStates (read context.stats)
    let newStats ← onArena (shrinkUnits oldStats (oldUnits >>> 1) (newUnits >>> 1))
    onStates (context.setStats newStats)
    let foundState ← onStates (read context.stats)
    modify fun model => { model with foundState }
  else do
    let foundState ← onStates (read context.stats)
    modify fun model => { model with foundState }

/-- The states that have no frequency left are dropped. -/
def dropZeros (context : Context) (first state : State) (oldCount escapeFrequency : Nat) : ModelM Unit := do
  let zeroCount ← onStates (countZeros oldCount (oldCount + 1) state 0)
  if zeroCount ≠ 0 then do
    let escapeFrequency ← ofExcept (add escapeFrequency zeroCount "PPMd escape frequency overflows")
    let count ← onStates (read context.numStats)
    let newCount ← ofExcept (sub count zeroCount "PPMd context state count underflows")
    onStates (context.setNumStats newCount)
    if newCount = 1 then
      collapse context first oldCount escapeFrequency
    else
      finishRescale context oldCount escapeFrequency
  else
    finishRescale context oldCount escapeFrequency

/-- The part of `rescale` behind the move to the front. -/
def halveFrequencies (context : Context) (first : State) (oldCount : Nat) (state : State) :
    ModelM Unit := do
  onStates (state.incrementFrequency 4)
  onStates (context.incrementSummFrequency 4)
  let summ ← onStates (read context.summFrequency)
  let frequency ← onStates (read state.frequency)
  let escapeFrequency ← ofExcept (sub summ frequency.toNat "PPMd escape frequency underflows")
  let model ← get
  let adder := if model.orderFall ≠ 0 then 1 else 0
  let frequency ← ofExcept (halved adder frequency)
  onStates (state.setFrequency frequency)
  onStates (context.setSummFrequency frequency.toNat)
  let remaining ← ofExcept (sub oldCount 1 "PPMd rescale state count underflows")
  let (state, escapeFrequency) ←
    rescaleStates context first oldCount adder remaining state escapeFrequency
  dropZeros context first state oldCount escapeFrequency

def rescale (context : Context) : ModelM Unit := do
  let oldCount ← onStates (read context.numStats)
  if oldCount < 2 then
    formatErr "PPMd cannot rescale a binary context"
  else do
    let first ← onStates (read context.stats)
    let model ← get
    let state ← moveToFront first oldCount (oldCount + 1) model.foundState 0
    halveFrequencies context first oldCount state

end Ppmd

end Un7z
