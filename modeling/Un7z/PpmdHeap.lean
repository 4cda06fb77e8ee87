/-
The heap of `decode/ppmd.rs`, and what lies in it.

The PPMd model keeps its contexts and their states in one array of bytes, and refers to
them by addresses, which are `u32`.  A `State`, a `Context`, a `RarNode` and a `MemBlock`
of the source is such an address, and its methods read and write the fields behind it.
A function that takes `&mut Heap` is a state transformer over the heap; as elsewhere, the
heap is lost with an error.
-/
import Un7z.Ppmd

namespace Un7z

namespace Ppmd

def sub (left right : Nat) (detail : String) : Except Error Nat :=
  orFormatError (checkedSub left right) detail

def mul (left right : Nat) (detail : String) : Except Error Nat :=
  orFormatError (checkedMul 32 left right) detail

structure Heap where
  bytes : Bytes
  deriving DecidableEq

/-- A function of the source that takes `&mut Heap`. -/
abbrev HeapM := StateT Heap (Except Error)

namespace Heap

def new (size : Nat) : Heap := ⟨List.replicate size 0⟩

def byte (heap : Heap) (address : Nat) : Except Error UInt8 :=
  orFormatError heap.bytes[address]? "PPMd heap byte address is out of range"

def putByte (address : Nat) (value : UInt8) : HeapM Unit := fun heap =>
  if address < heap.bytes.length then
    .ok ((), ⟨heap.bytes.set address value⟩)
  else
    .error (formatError "PPMd heap byte address is out of range")

def u16 (heap : Heap) (address : Nat) : Except Error Nat := do
  let highAddress ← add address 1 "PPMd u16 address overflows"
  let low ← heap.byte address
  let high ← heap.byte highAddress
  pure (low.toNat ||| (high.toNat <<< 8))

def putU16 (address value : Nat) : HeapM Unit := do
  let value ← orFormatError (tryFrom 16 value) "PPMd u16 value is out of range"
  let highAddress ← add address 1 "PPMd u16 address overflows"
  putByte address (UInt8.ofNat (value % 256))
  putByte highAddress (UInt8.ofNat (value / 256))

def u32 (heap : Heap) (address : Nat) : Except Error Nat := do
  let b1 ← add address 1 "PPMd u32 address overflows"
  let b2 ← add address 2 "PPMd u32 address overflows"
  let b3 ← add address 3 "PPMd u32 address overflows"
  let byte0 ← heap.byte address
  let byte1 ← heap.byte b1
  let byte2 ← heap.byte b2
  let byte3 ← heap.byte b3
  pure (byte0.toNat ||| (byte1.toNat <<< 8) ||| (byte2.toNat <<< 16) ||| (byte3.toNat <<< 24))

/-- The rounds of `put_u32`: the byte at each offset, and the part of the value above it. -/
def putShifted (address value : Nat) : List Nat → HeapM Unit
  | [] => pure ()
  | shift :: shifts => do
      let address' ← add address (shift / 8) "PPMd u32 address overflows"
      let byte ← orFormatError (tryFrom 8 ((value >>> shift) &&& 0xff)) "PPMd u32 byte is out of range"
      putByte address' (UInt8.ofNat byte)
      putShifted address value shifts

def putU32 (address value : Nat) : HeapM Unit := putShifted address value [0, 8, 16, 24]

/-- `copy_within`: the bytes from `source`, `size` of them, at `destination`. -/
def copyWithin (bytes : Bytes) (source size destination : Nat) : Bytes :=
  bytes.take destination ++ (bytes.drop source).take size ++ bytes.drop (destination + size)

def copy (destination source size : Nat) : HeapM Unit := fun heap => do
  let sourceEnd ← add source size "PPMd heap source range overflows"
  let destinationEnd ← add destination size "PPMd heap destination range overflows"
  if sourceEnd > heap.bytes.length ∨ destinationEnd > heap.bytes.length then
    .error (formatError "PPMd heap copy range is out of bounds")
  else
    pure ((), ⟨copyWithin heap.bytes source size destination⟩)

def clear (address size : Nat) : HeapM Unit := fun heap => do
  let stop ← add address size "PPMd heap clear range overflows"
  if stop > heap.bytes.length then
    .error (formatError "PPMd heap clear range is out of bounds")
  else
    pure ((), ⟨heap.bytes.take address ++ List.replicate size 0 ++ heap.bytes.drop stop⟩)

/-- Read something off the heap. -/
def read {α : Type} (f : Heap → Except Error α) : HeapM α := fun heap => do
  let value ← f heap
  pure (value, heap)

end Heap

open Heap

def stateSize : Nat := 6
def unitSize : Nat := 12

/-! ### States -/

structure StateRef where
  successor : Nat
  symbol : UInt8
  frequency : UInt8
  deriving DecidableEq

/-- The addresses of states. -/
abbrev State := Nat

namespace State

def increment (state : State) : Except Error State :=
  add state stateSize "PPMd state address overflows"

def decrement (state : State) : Except Error State :=
  sub state stateSize "PPMd state address underflows"

def symbol (state : State) (heap : Heap) : Except Error UInt8 := heap.byte state

def setSymbol (state : State) (symbol : UInt8) : HeapM Unit := putByte state symbol

def frequency (state : State) (heap : Heap) : Except Error UInt8 := do
  let address ← add state 1 "PPMd state frequency address overflows"
  heap.byte address

def setFrequency (state : State) (frequency : UInt8) : HeapM Unit := do
  let address ← add state 1 "PPMd state frequency address overflows"
  putByte address frequency

def incrementFrequency (state : State) (amount : Nat) : HeapM Unit := do
  let frequency ← read state.frequency
  let frequency ← orFormatError (checkedAdd 8 frequency.toNat amount) "PPMd state frequency overflows"
  state.setFrequency (UInt8.ofNat frequency)

def successor (state : State) (heap : Heap) : Except Error Nat := do
  let address ← add state 2 "PPMd state successor address overflows"
  heap.u32 address

def setSuccessor (state : State) (successor : Nat) : HeapM Unit := do
  let address ← add state 2 "PPMd state successor address overflows"
  putU32 address successor

def setRef (state : State) (saved : StateRef) : HeapM Unit := do
  state.setSymbol saved.symbol
  state.setFrequency saved.frequency
  state.setSuccessor saved.successor

def copyFrom (state source : State) : HeapM Unit := copy state source stateSize

end State

/-- `StateRef::from_state`. -/
def StateRef.fromState (state : State) (heap : Heap) : Except Error StateRef := do
  let successor ← State.successor state heap
  let symbol ← State.symbol state heap
  let frequency ← State.frequency state heap
  pure ⟨successor, symbol, frequency⟩

/-- The first loop of `swap_states`. -/
def readTemporary (heap : Heap) (left : State) : List Nat → Except Error Bytes
  | [] => pure []
  | offset :: offsets => do
      let address ← add left offset "PPMd state swap address overflows"
      let byte ← heap.byte address
      let rest ← readTemporary heap left offsets
      pure (byte :: rest)

/-- The second loop: the right state over the left one. -/
def overwriteLeft (left right : State) : List Nat → HeapM Unit
  | [] => pure ()
  | offset :: offsets => do
      let source ← add right offset "PPMd state swap address overflows"
      let value ← read fun heap => heap.byte source
      let destination ← add left offset "PPMd state swap address overflows"
      putByte destination value
      overwriteLeft left right offsets

/-- The third loop: what was saved over the right one, from `offset` on. -/
def overwriteRight (right : State) : Nat → Bytes → HeapM Unit
  | _, [] => pure ()
  | offset, byte :: temporary => do
      let destination ← add right offset "PPMd state swap address overflows"
      putByte destination byte
      overwriteRight right (offset + 1) temporary

def swapStates (left right : State) : HeapM Unit := do
  let temporary ← read fun heap => readTemporary heap left (List.range stateSize)
  overwriteLeft left right (List.range stateSize)
  overwriteRight right 0 temporary

/-! ### Contexts -/

/-- The addresses of contexts. -/
abbrev Context := Nat

namespace Context

def numStats (context : Context) (heap : Heap) : Except Error Nat := heap.u16 context

def setNumStats (context : Context) (count : Nat) : HeapM Unit :=
  if 1 ≤ count ∧ count ≤ 256 then
    putU16 context count
  else
    throw (formatError "PPMd context state count is invalid")

def oneState (context : Context) : Except Error State :=
  add context 2 "PPMd one-state address overflows"

def setOneState (context : Context) (saved : StateRef) : HeapM Unit := do
  let state ← context.oneState
  State.setRef state saved

def summFrequency (context : Context) (heap : Heap) : Except Error Nat := do
  let address ← add context 2 "PPMd summary frequency address overflows"
  heap.u16 address

def setSummFrequency (context : Context) (frequency : Nat) : HeapM Unit := do
  let address ← add context 2 "PPMd summary frequency address overflows"
  putU16 address frequency

def incrementSummFrequency (context : Context) (amount : Nat) : HeapM Unit := do
  let frequency ← read context.summFrequency
  let frequency ← orFormatError (checkedAdd 32 frequency amount) "PPMd summary frequency overflows"
  context.setSummFrequency frequency

def stats (context : Context) (heap : Heap) : Except Error Nat := do
  let address ← add context 4 "PPMd stats address overflows"
  heap.u32 address

def setStats (context : Context) (state : Nat) : HeapM Unit := do
  let address ← add context 4 "PPMd stats address overflows"
  putU32 address state

end Context

/-! ### Free blocks -/

/-- The addresses of the nodes of a free list, and of its head. -/
abbrev RarNode := Nat

namespace RarNode

def next (node : RarNode) (heap : Heap) : Except Error Nat := heap.u32 node

def setNext (node : RarNode) (next : Nat) : HeapM Unit := putU32 node next

end RarNode

/-- The addresses of free blocks while they are glued. -/
abbrev MemBlock := Nat

namespace MemBlock

def stamp (block : MemBlock) (heap : Heap) : Except Error Nat := heap.u16 block

def setStamp (block : MemBlock) (value : Nat) : HeapM Unit := putU16 block value

def units (block : MemBlock) (heap : Heap) : Except Error Nat := do
  let address ← add block 2 "PPMd memory-block units address overflows"
  heap.u16 address

def setUnits (block : MemBlock) (units : Nat) : HeapM Unit := do
  let address ← add block 2 "PPMd memory-block units address overflows"
  putU16 address units

def next (block : MemBlock) (heap : Heap) : Except Error Nat := do
  let address ← add block 4 "PPMd memory-block next address overflows"
  heap.u32 address

def setNext (block : MemBlock) (next : Nat) : HeapM Unit := do
  let address ← add block 4 "PPMd memory-block next address overflows"
  putU32 address next

def previous (block : MemBlock) (heap : Heap) : Except Error Nat := do
  let address ← add block 8 "PPMd memory-block previous address overflows"
  heap.u32 address

def setPrevious (block : MemBlock) (previous : Nat) : HeapM Unit := do
  let address ← add block 8 "PPMd memory-block previous address overflows"
  putU32 address previous

def insertAt (block after : MemBlock) : HeapM Unit := do
  block.setPrevious after
  let next ← read after.next
  block.setNext next
  after.setNext block
  let next ← read block.next
  MemBlock.setPrevious next block

def remove (block : MemBlock) : HeapM Unit := do
  let previous ← read block.previous
  let next ← read block.next
  MemBlock.setNext previous next
  MemBlock.setPrevious next previous

end MemBlock

end Ppmd

end Un7z
