/-
The suballocator of `decode/ppmd.rs`.

Memory is handed out in blocks of twelve-byte units.  A block has one of 38 sizes, its
class, and the free blocks of a class are a list that is threaded through the blocks
themselves, from a head behind the arena.  What is not yet handed out lies between
`lowUnit` and `highUnit`; when neither the lists nor this gap have a block, the free blocks
are glued, a larger one is split, or the units begin a little lower.

The functions take `&mut SubAllocator` and `&mut Heap`, so they act on an `Arena`, which is
both.
-/
import Un7z.PpmdHeap

namespace Un7z

namespace Ppmd

open Heap

def fixedUnitSize : Nat := 12
def rarNodeSize : Nat := 4
def rarMemBlockSize : Nat := 12
def n1 : Nat := 4
def n2 : Nat := 4
def n3 : Nat := 4
def n4 : Nat := (128 + 3 - n1 - 2 * n2 - 3 * n3) / 4
def nIndexes : Nat := n1 + n2 + n3 + n4

structure SubAllocator where
  glueCount : Nat
  size : Nat
  unitsStart : Nat
  freeListPosition : Nat
  heapStart : Nat
  lowUnit : Nat
  highUnit : Nat
  temporaryBlockPosition : Nat
  heapEnd : Nat
  text : Nat
  fakeUnitsStart : Nat
  unitsToIndex : List Nat
  indexToUnits : List Nat
  freeList : List RarNode
  deriving DecidableEq

/-- The allocator with its heap. -/
structure Arena where
  allocator : SubAllocator
  heap : Heap
  deriving DecidableEq

/-- A function of the source that takes `&mut SubAllocator` and `&mut Heap`. -/
abbrev ArenaM := StateT Arena (Except Error)

/-- A function that takes `&mut Heap`. -/
def onHeap {α : Type} (m : HeapM α) : ArenaM α := fun arena => do
  let (value, heap) ← m arena.heap
  pure (value, { arena with heap })

/-- A function that takes `&SubAllocator`. -/
def asks {α : Type} (f : SubAllocator → Except Error α) : ArenaM α := fun arena => do
  let value ← f arena.allocator
  pure (value, arena)

def update (f : SubAllocator → SubAllocator) : ArenaM Unit :=
  modify fun arena => { arena with allocator := f arena.allocator }

namespace SubAllocator

/-- The positions of the heads of the lists. -/
def headPositions : Nat → (position : Nat) → Except Error (List RarNode)
  | 0, _ => pure []
  | count + 1, position => do
      let next ← add position rarNodeSize "PPMd free-list address overflows"
      let rest ← headPositions count next
      pure (position :: rest)

/-- `SubAllocator::new`. -/
def new (size : Nat) : Except Error Arena := do
  let units ← mul (size / fixedUnitSize) unitSize "PPMd allocation size overflows"
  let allocationSize ← add units unitSize "PPMd allocation size overflows"
  let listBytes ← mul nIndexes rarNodeSize "PPMd free-list size overflows"
  let layout ← add 1 allocationSize "PPMd heap layout overflows"
  let temporaryBlockPosition ← add layout listBytes "PPMd heap layout overflows"
  let realSize ← add temporaryBlockPosition rarMemBlockSize "PPMd heap layout overflows"
  let heap := Heap.new realSize
  let heapStart := 1
  let allocationEnd ← add heapStart allocationSize "PPMd heap end overflows"
  let heapEnd ← sub allocationEnd unitSize "PPMd heap end underflows"
  let freeListPosition ← add heapStart allocationSize "PPMd free-list position overflows"
  let freeList ← headPositions nIndexes freeListPosition
  pure
    { allocator :=
        { glueCount := 0
          size
          unitsStart := 0
          freeListPosition
          heapStart
          lowUnit := 0
          highUnit := 0
          temporaryBlockPosition
          heapEnd
          text := 0
          fakeUnitsStart := 0
          unitsToIndex := List.replicate 128 0
          indexToUnits := List.replicate nIndexes 0
          freeList }
      heap }

def bytesForUnits (units : Nat) : Except Error Nat := mul unitSize units "PPMd unit-byte size overflows"

def freeIndex (index : Nat) : Except Error Nat :=
  if index ≥ nIndexes then
    .error (formatError "PPMd free-list index is out of range")
  else
    pure index

def unitIndex (unitsMinusOne : Nat) (allocator : SubAllocator) : Except Error Nat :=
  orFormatError allocator.unitsToIndex[unitsMinusOne]? "PPMd unit index is out of range"

def unitsAt (index : Nat) (allocator : SubAllocator) : Except Error Nat := do
  let index ← freeIndex index
  orFormatError allocator.indexToUnits[index]? "PPMd allocation index is out of range"

/-- The head of a list; each caller has its own error for one that is missing. -/
def head (index : Nat) (detail : String) (allocator : SubAllocator) : Except Error RarNode := do
  let index ← freeIndex index
  orFormatError allocator.freeList[index]? detail

end SubAllocator

open SubAllocator

/-! ### The lists -/

def insertNode (address index : Nat) : ArenaM Unit := do
  let head ← asks (head index "PPMd free-list head is missing")
  let next ← onHeap (read (RarNode.next head))
  onHeap (RarNode.setNext address next)
  onHeap (RarNode.setNext head address)

def removeNode (index : Nat) : ArenaM Nat := do
  let head ← asks (head index "PPMd free-list head is missing")
  let address ← onHeap (read (RarNode.next head))
  if address = 0 then
    throw (formatError "PPMd attempted to remove an empty free-list node")
  else do
    let next ← onHeap (read (RarNode.next address))
    onHeap (RarNode.setNext head next)
    pure address

/-- The part of `split_block` for a rest that is of no class: what goes first, and what is left. -/
def splitRemainder (difference remainder index : Nat) : ArenaM (Nat × Nat) := do
  let units ← asks (unitsAt index)
  if units ≠ difference then do
    let index ← sub index 1 "PPMd split allocation index underflows"
    insertNode remainder index
    let units ← asks (unitsAt index)
    let bytes ← bytesForUnits units
    let remainder ← add remainder bytes "PPMd split-block address overflows"
    let difference ← sub difference units "PPMd split-unit difference underflows"
    pure (difference, remainder)
  else
    pure (difference, remainder)

def splitBlock (address oldIndex newIndex : Nat) : ArenaM Unit := do
  let oldUnits ← asks (unitsAt oldIndex)
  let newUnits ← asks (unitsAt newIndex)
  let difference ← sub oldUnits newUnits "PPMd split-unit difference underflows"
  let bytes ← bytesForUnits newUnits
  let remainder ← add address bytes "PPMd split-block address overflows"
  let last ← sub difference 1 "PPMd split-unit index underflows"
  let index ← asks (unitIndex last)
  let (difference, remainder) ← splitRemainder difference remainder index
  let last ← sub difference 1 "PPMd split-unit index underflows"
  let index ← asks (unitIndex last)
  insertNode remainder index

/-! ### Initialisation -/

/-- One of the four loops over `index_to_units`: `count` classes, `step` units apart. -/
def fillClasses (step : Nat) : Nat → (index units : Nat) → List Nat →
    Except Error (Nat × Nat × List Nat)
  | 0, index, units, classes => pure (index, units, classes)
  | count + 1, index, units, classes => do
      let classes := classes.set index units
      let units ← add units step "PPMd unit class overflows"
      let index ← orFormatError (checkedAdd 64 index 1) "PPMd unit-class index overflows"
      fillClasses step count index units classes

/-- The whole of `index_to_units`. -/
def fillIndexToUnits (classes : List Nat) : Except Error (List Nat) := do
  let (index, units, classes) ← fillClasses 1 n1 0 1 classes
  let units ← add units 1 "PPMd unit class overflows"
  let (index, units, classes) ← fillClasses 2 n2 index units classes
  let units ← add units 1 "PPMd unit class overflows"
  let (index, units, classes) ← fillClasses 3 n3 index units classes
  let units ← add units 1 "PPMd unit class overflows"
  let (_, _, classes) ← fillClasses 4 n4 index units classes
  pure classes

/-- `while index_to_units[class] < requested`; a class too many is out of range. -/
def findClass (indexToUnits : List Nat) (requested : Nat) : Nat → Nat → Except Error Nat
  | 0, _ => .error (formatError "PPMd unit class is out of range")
  | fuel + 1, class' => do
      let units ← orFormatError indexToUnits[class']? "PPMd unit class is out of range"
      if units < requested then do
        let class' ← orFormatError (checkedAdd 64 class' 1) "PPMd unit class index overflows"
        findClass indexToUnits requested fuel class'
      else
        pure class'

/-- The loop over `units_to_index`, from `requested` units on. -/
def fillUnitsToIndex (indexToUnits : List Nat) : Nat → (requested class' : Nat) → List Nat →
    Except Error (List Nat)
  | 0, _, _, indexes => pure indexes
  | count + 1, requested, class', indexes => do
      let class' ← findClass indexToUnits requested (indexToUnits.length + 1) class'
      let slot ← sub requested 1 "PPMd requested-unit index underflows"
      if slot < indexes.length then
        fillUnitsToIndex indexToUnits count (requested + 1) class' (indexes.set slot class')
      else
        .error (formatError "PPMd requested-unit index is out of range")

/-- `SubAllocator::initialize`. -/
def initializeUnits : ArenaM Unit := do
  let listSize ← mul nIndexes rarNodeSize "PPMd free-list size overflows"
  let allocator ← asks pure
  onHeap (clear allocator.freeListPosition listSize)
  update fun allocator => { allocator with text := allocator.heapStart }
  let secondaryUnits ← orFormatError (checkedMul 32 (allocator.size / 8 / fixedUnitSize) 7)
    "PPMd secondary allocation size overflows"
  let sizeTwo ← mul fixedUnitSize secondaryUnits "PPMd secondary allocation size overflows"
  let realSizeTwo ← mul (sizeTwo / fixedUnitSize) unitSize "PPMd secondary allocation size overflows"
  let sizeOne ← sub allocator.size sizeTwo "PPMd primary allocation size underflows"
  let unitsOne ← mul (sizeOne / fixedUnitSize) unitSize "PPMd primary allocation size overflows"
  let realSizeOne ← add unitsOne (sizeOne % fixedUnitSize) "PPMd primary allocation size overflows"
  let lowUnit ← add allocator.heapStart realSizeOne "PPMd low-unit address overflows"
  let fakeUnitsStart ← add allocator.heapStart sizeOne "PPMd fake-unit address overflows"
  let highUnit ← add lowUnit realSizeTwo "PPMd high-unit address overflows"
  let indexToUnits ← fillIndexToUnits allocator.indexToUnits
  let unitsToIndex ← fillUnitsToIndex indexToUnits 128 1 0 allocator.unitsToIndex
  update fun allocator =>
    { allocator with
      lowUnit
      unitsStart := lowUnit
      fakeUnitsStart
      highUnit
      indexToUnits
      glueCount := 0
      unitsToIndex }

/-! ### Gluing -/

/-- The inner loop that empties a list: every block is stamped and put behind the sentinel.
There are no more than `fuel` of them. -/
def collectList (sentinel : MemBlock) (index : Nat) : Nat → ArenaM Unit
  | 0 => throw (formatError "PPMd free list does not end")
  | fuel + 1 => do
      let head ← asks (head index "PPMd glue free-list is missing")
      let next ← onHeap (read (RarNode.next head))
      if next = 0 then
        pure ()
      else do
        let block ← removeNode index
        onHeap (MemBlock.insertAt block sentinel)
        onHeap (MemBlock.setStamp block 0xffff)
        let units ← asks (unitsAt index)
        onHeap (MemBlock.setUnits block units)
        collectList sentinel index fuel

/-- `for index in 0..N_INDEXES`. -/
def collectLists (sentinel : MemBlock) (fuel : Nat) : List Nat → ArenaM Unit
  | [] => pure ()
  | index :: indexes => do
      collectList sentinel index fuel
      collectLists sentinel fuel indexes

/-- Where a block ends. -/
def blockEnd (block : MemBlock) (heap : Heap) : Except Error MemBlock := do
  let units ← MemBlock.units block heap
  let bytes ← bytesForUnits units
  add block bytes "PPMd adjacent block address overflows"

/-- `while next.stamp(heap)? == 0xffff && ..`: the free blocks right behind `block` join it.
Each time it grows, so there are no more than `fuel` of them. -/
def mergeNext (block : MemBlock) : Nat → (next : MemBlock) → HeapM Unit
  | 0, _ => throw (formatError "PPMd merged block does not end")
  | fuel + 1, next => do
      let stamp ← read (MemBlock.stamp next)
      if stamp = 0xffff then do
        let units ← read (MemBlock.units block)
        let more ← read (MemBlock.units next)
        if (checkedAdd 32 units more).any (· < 0x10000) then do
          MemBlock.remove next
          let units ← read (MemBlock.units block)
          let more ← read (MemBlock.units next)
          let units ← add units more "PPMd merged unit count overflows"
          MemBlock.setUnits block units
          let next ← read (blockEnd block)
          mergeNext block fuel next
        else
          pure ()
      else
        pure ()

/-- The first loop over the ring. -/
def mergeBlocks (sentinel : MemBlock) (maximumSteps : Nat) : Nat → (block steps : Nat) → HeapM Unit
  | 0, _, _ => throw (formatError "PPMd free-block list contains a cycle")
  | fuel + 1, block, steps =>
      if block = sentinel then
        pure ()
      else do
        let steps ← add steps 1 "PPMd glue step count overflows"
        if steps > maximumSteps then
          throw (formatError "PPMd free-block list contains a cycle")
        else do
          let next ← read (blockEnd block)
          mergeNext block 0x10000 next
          let block ← read (MemBlock.next block)
          mergeBlocks sentinel maximumSteps fuel block steps

/-- `while units > 128`: what is left of a block once blocks of the largest class are off it. -/
def cutLargest : Nat → (block units : Nat) → ArenaM (Nat × Nat)
  | 0, _, _ => throw (formatError "PPMd merged block is too large")
  | fuel + 1, block, units =>
      if units > 128 then do
        insertNode block (nIndexes - 1)
        let bytes ← bytesForUnits 128
        let block ← add block bytes "PPMd glue block address overflows"
        let units ← sub units 128 "PPMd glue unit count underflows"
        cutLargest fuel block units
      else
        pure (block, units)

/-- A merged block goes back to the lists. -/
def releaseBlock (block : MemBlock) : ArenaM Unit := do
  onHeap (MemBlock.remove block)
  let units ← onHeap (read (MemBlock.units block))
  let (block, units) ← cutLargest (units + 1) block units
  let last ← sub units 1 "PPMd glue unit index underflows"
  let index ← asks (unitIndex last)
  let classUnits ← asks (unitsAt index)
  if classUnits ≠ units then do
    let index ← sub index 1 "PPMd glue allocation index underflows"
    let classUnits ← asks (unitsAt index)
    let remainderUnits ← sub units classUnits "PPMd glue remainder underflows"
    let keptUnits ← sub units remainderUnits "PPMd glue prefix underflows"
    let bytes ← bytesForUnits keptUnits
    let remainder ← add block bytes "PPMd glue remainder address overflows"
    let remainderIndex ← sub remainderUnits 1 "PPMd glue remainder index underflows"
    insertNode remainder remainderIndex
    insertNode block index
  else
    insertNode block index

/-- The second loop over the ring. -/
def releaseBlocks (sentinel : MemBlock) (maximumSteps : Nat) : Nat → (block steps : Nat) → ArenaM Unit
  | 0, _, _ => throw (formatError "PPMd free-block list contains a cycle")
  | fuel + 1, block, steps =>
      if block = sentinel then
        pure ()
      else do
        let steps ← add steps 1 "PPMd glue step count overflows"
        if steps > maximumSteps then
          throw (formatError "PPMd free-block list contains a cycle")
        else do
          releaseBlock block
          let block ← onHeap (read (MemBlock.next sentinel))
          releaseBlocks sentinel maximumSteps fuel block steps

/-- `glue_free_blocks`, once the ring is set up. -/
def glueRounds (sentinel : MemBlock) : ArenaM Unit := do
  let length ← onHeap (read fun heap => pure heap.bytes.length)
  collectLists sentinel (length + 1) (List.range nIndexes)
  let maximumSteps ← orFormatError (checkedAdd 32 (length / rarMemBlockSize) 1)
    "PPMd glue step limit overflows"
  let block ← onHeap (read (MemBlock.next sentinel))
  onHeap (mergeBlocks sentinel maximumSteps (maximumSteps + 1) block 0)
  let block ← onHeap (read (MemBlock.next sentinel))
  releaseBlocks sentinel maximumSteps (maximumSteps + 1) block 0

/-- The first byte of the gap is cleared, so that the gap is not taken for a free block. -/
def clearGap : ArenaM Unit := do
  let allocator ← asks pure
  if allocator.lowUnit ≠ allocator.highUnit then
    onHeap (putByte allocator.lowUnit 0)
  else
    pure ()

def glueFreeBlocks : ArenaM Unit := do
  clearGap
  let allocator ← asks pure
  let sentinel := allocator.temporaryBlockPosition
  onHeap (MemBlock.setPrevious sentinel sentinel)
  onHeap (MemBlock.setNext sentinel sentinel)
  glueRounds sentinel

/-! ### Allocation -/

/-- The loop of `allocate_units_rare`: the first class above `larger` that has a block. -/
def findLarger : Nat → (larger : Nat) → ArenaM (Option Nat)
  | 0, _ => pure none
  | fuel + 1, larger => do
      let larger ← add larger 1 "PPMd allocation class overflows"
      if larger = nIndexes then
        pure none
      else do
        let head ← asks (head larger "PPMd larger free-list is missing")
        let next ← onHeap (read (RarNode.next head))
        if next ≠ 0 then
          pure (some larger)
        else
          findLarger fuel larger

/-- The branch of `allocate_units_rare` where no list has a block. -/
def lowerUnitsStart (index : Nat) : ArenaM Nat := do
  let allocator ← asks pure
  let glueCount ← orFormatError (checkedSub allocator.glueCount 1) "PPMd glue counter underflows"
  update fun allocator => { allocator with glueCount }
  let units ← asks (unitsAt index)
  let bytes ← bytesForUnits units
  let fakeBytes ← mul fixedUnitSize units "PPMd fake-unit byte count overflows"
  let span ← sub allocator.fakeUnitsStart allocator.text "PPMd fake-unit span underflows"
  if span > fakeBytes then do
    let fakeUnitsStart ← sub allocator.fakeUnitsStart fakeBytes "PPMd fake-unit address underflows"
    let unitsStart ← sub allocator.unitsStart bytes "PPMd unit-start address underflows"
    update fun allocator => { allocator with fakeUnitsStart, unitsStart }
    pure unitsStart
  else
    pure 0

/-- What `allocate_units_rare` does once the blocks are glued, if they were. -/
def allocateLarger (index : Nat) : ArenaM Nat := do
  match ← findLarger nIndexes index with
  | some larger => do
      let address ← removeNode larger
      splitBlock address larger index
      pure address
  | none => lowerUnitsStart index

def allocateUnitsRare (index : Nat) : ArenaM Nat := do
  let allocator ← asks pure
  if allocator.glueCount = 0 then do
    update fun allocator => { allocator with glueCount := 255 }
    glueFreeBlocks
    let head ← asks (head index "PPMd rare free-list is missing")
    let next ← onHeap (read (RarNode.next head))
    if next ≠ 0 then
      removeNode index
    else
      allocateLarger index
  else
    allocateLarger index

def allocateContext : ArenaM Nat := do
  let allocator ← asks pure
  if allocator.highUnit ≠ allocator.lowUnit then do
    let highUnit ← sub allocator.highUnit unitSize "PPMd high-unit address underflows"
    update fun allocator => { allocator with highUnit }
    pure highUnit
  else do
    let head ← orFormatError allocator.freeList.head? "PPMd context free-list is missing"
    let next ← onHeap (read (RarNode.next head))
    if next ≠ 0 then
      removeNode 0
    else
      allocateUnitsRare 0

def allocateUnits (units : Nat) : ArenaM Nat := do
  if ¬ (1 ≤ units ∧ units ≤ 128) then
    throw (formatError "PPMd allocation unit count is out of range")
  else do
    let last ← sub units 1 "PPMd unit index underflows"
    let index ← asks (unitIndex last)
    let head ← asks (head index "PPMd allocation free-list is missing")
    let next ← onHeap (read (RarNode.next head))
    if next ≠ 0 then
      removeNode index
    else do
      let allocator ← asks pure
      let classUnits ← asks (unitsAt index)
      let bytes ← bytesForUnits classUnits
      let lowUnit ← add allocator.lowUnit bytes "PPMd low-unit address overflows"
      if lowUnit ≤ allocator.highUnit then do
        update fun allocator => { allocator with lowUnit }
        pure allocator.lowUnit
      else do
        -- The source puts the address back, and so never leaves it above the contexts.
        let _ ← sub lowUnit bytes "PPMd low-unit address underflows"
        allocateUnitsRare index

def expandUnits (old oldUnits : Nat) : ArenaM Nat := do
  let last ← sub oldUnits 1 "PPMd old-unit index underflows"
  let oldIndex ← asks (unitIndex last)
  let newIndex ← asks (unitIndex oldUnits)
  if oldIndex = newIndex then
    pure old
  else do
    let newUnits ← add oldUnits 1 "PPMd unit count overflows"
    let new ← allocateUnits newUnits
    if new ≠ 0 then do
      let bytes ← bytesForUnits oldUnits
      onHeap (copy new old bytes)
      insertNode old oldIndex
      pure new
    else
      pure new

def shrinkUnits (old oldUnits newUnits : Nat) : ArenaM Nat := do
  let last ← sub oldUnits 1 "PPMd old-unit index underflows"
  let oldIndex ← asks (unitIndex last)
  let last ← sub newUnits 1 "PPMd new-unit index underflows"
  let newIndex ← asks (unitIndex last)
  if oldIndex = newIndex then
    pure old
  else do
    let head ← asks (head newIndex "PPMd shrink free-list is missing")
    let next ← onHeap (read (RarNode.next head))
    if next ≠ 0 then do
      let new ← removeNode newIndex
      let bytes ← bytesForUnits newUnits
      onHeap (copy new old bytes)
      insertNode old oldIndex
      pure new
    else do
      splitBlock old oldIndex newIndex
      pure old

def freeUnits (address oldUnits : Nat) : ArenaM Unit := do
  let last ← sub oldUnits 1 "PPMd free-unit index underflows"
  let index ← asks (unitIndex last)
  insertNode address index

end Ppmd

end Un7z
