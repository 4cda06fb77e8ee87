/-
The free lists of the suballocator.

Every block that is handed out, every free block and the gap between them tile the units,
and the free blocks of a class are a chain from the head of the class.  `Lists` says so of an
arena, with the free blocks told apart from the rest; an operation takes a block from the
one to the other.  What it changes in the memory is inside the block and behind the arena.
-/
import Un7z.Proofs.PpmdMemory
import Un7z.Lib.Cover

namespace Un7z

namespace Ppmd

open ByteMemory LinkedBlocks Cover SubAllocator

/-! ### Classes -/

/-- The units of each class. -/
def classTable : List Nat :=
  [1, 2, 3, 4, 6, 8, 10, 12, 15, 18, 21, 24, 28, 32, 36, 40, 44, 48, 52, 56, 60, 64, 68, 72, 76, 80,
    84, 88, 92, 96, 100, 104, 108, 112, 116, 120, 124, 128]

/-- The first class that has room for so many units and one more. -/
def indexTable : List Nat :=
  (List.range 128).map fun last => classTable.findIdx fun units => decide (last < units)

def classUnits (index : Nat) : Nat := classTable.getD index 0

def classOf (last : Nat) : Nat := indexTable.getD last 0

theorem fillIndexToUnits_eq :
    fillIndexToUnits (List.replicate nIndexes 0) = .ok classTable := by decide +kernel

theorem fillUnitsToIndex_eq :
    fillUnitsToIndex classTable 128 1 0 (List.replicate 128 0) = .ok indexTable := by
  decide +kernel

theorem classTable_getElem? {index : Nat} (h : index < nIndexes) :
    classTable[index]? = some (classUnits index) := by
  have hlt : index < classTable.length := h
  rw [classUnits, List.getD_eq_getElem?_getD, List.getElem?_eq_getElem hlt, Option.getD_some]

theorem indexTable_getElem? {last : Nat} (h : last < 128) :
    indexTable[last]? = some (classOf last) := by
  have hlt : last < indexTable.length := by
    rw [indexTable, List.length_map, List.length_range]
    exact h
  rw [classOf, List.getD_eq_getElem?_getD, List.getElem?_eq_getElem hlt, Option.getD_some]

theorem classUnits_pos : ∀ index < nIndexes, 0 < classUnits index := by decide

theorem classUnits_le : ∀ index < nIndexes, classUnits index ≤ 128 := by decide

theorem classUnits_lt : ∀ index < nIndexes, ∀ other < index, classUnits other < classUnits index := by
  decide

theorem classOf_lt : ∀ last < 128, classOf last < nIndexes := by decide +kernel

/-- A class has room for what it is the class of. -/
theorem classOf_units : ∀ last < 128, last < classUnits (classOf last) := by decide +kernel

/-- A number of units that is that of no class is that of the class below and of a small one. -/
theorem classOf_split : ∀ last < 128, classUnits (classOf last) ≠ last + 1 →
    0 < classOf last ∧ classUnits (classOf last - 1) < last + 1 ∧
      last + 1 - classUnits (classOf last - 1) ≤ 4 := by decide +kernel

/-- The small classes. -/
theorem classOf_small : ∀ units < 5, 0 < units →
    classOf (units - 1) = units - 1 ∧ classUnits (units - 1) = units := by decide

/-- Units of one class more. -/
theorem classOf_of_class : ∀ index < nIndexes, classOf (classUnits index - 1) = index := by
  decide +kernel

/-! ### The layout -/

/-- The size of the arena, after its first byte. -/
def arenaEnd (arena : Arena) : Nat := 1 + arena.allocator.size

/-- What no operation changes. -/
structure Layout (arena : Arena) : Prop where
  position : arena.allocator.freeListPosition = arena.allocator.size / 12 * 12 + 13
  temporary : arena.allocator.temporaryBlockPosition = arena.allocator.freeListPosition + 152
  length : arena.heap.bytes.length = arena.allocator.temporaryBlockPosition + 12
  length_lt : arena.heap.bytes.length < 2 ^ 32
  heapStart : arena.allocator.heapStart = 1
  heads : arena.allocator.freeList
    = (List.range nIndexes).map fun index => arena.allocator.freeListPosition + 4 * index
  units : arena.allocator.indexToUnits = classTable
  indexes : arena.allocator.unitsToIndex = indexTable

namespace Layout

variable {arena : Arena} {index last : Nat}

/-- The arena ends before the heads. -/
theorem arenaEnd_lt (h : Layout arena) : arenaEnd arena < arena.allocator.freeListPosition := by
  rw [h.position, arenaEnd]
  omega

/-- The memory may change, as long as there is as much of it. -/
theorem memory (h : Layout arena) {bytes : Bytes} (hbytes : bytes.length = arena.heap.bytes.length) :
    Layout { arena with heap := ⟨bytes⟩ } :=
  ⟨h.position, h.temporary, hbytes.trans h.length, hbytes.symm ▸ h.length_lt, h.heapStart, h.heads,
    h.units, h.indexes⟩

/-- So may what lies where in the arena. -/
theorem ranges (h : Layout arena) (glueCount unitsStart lowUnit highUnit text fakeUnitsStart : Nat) :
    Layout { arena with allocator := { arena.allocator with
      glueCount, unitsStart, lowUnit, highUnit, text, fakeUnitsStart } } :=
  ⟨h.position, h.temporary, h.length, h.length_lt, h.heapStart, h.heads, h.units, h.indexes⟩

theorem freeIndex_eq (hindex : index < nIndexes) : freeIndex index = .ok index :=
  if_neg (Nat.not_le.mpr hindex)

theorem unitsAt_eq (h : Layout arena) (hindex : index < nIndexes) :
    unitsAt index arena.allocator = .ok (classUnits index) := by
  rw [unitsAt, freeIndex_eq hindex, except_ok_bind, h.units, classTable_getElem? hindex,
    orFormatError_some]

theorem unitIndex_eq (h : Layout arena) (hlast : last < 128) :
    unitIndex last arena.allocator = .ok (classOf last) := by
  rw [unitIndex, h.indexes, indexTable_getElem? hlast, orFormatError_some]

theorem head_eq (h : Layout arena) (hindex : index < nIndexes) (detail : String) :
    head index detail arena.allocator = .ok (arena.allocator.freeListPosition + 4 * index) := by
  rw [head, freeIndex_eq hindex, except_ok_bind, h.heads, List.getElem?_map,
    List.getElem?_range hindex]
  rfl

theorem head_fits (h : Layout arena) (hindex : index < nIndexes) :
    arena.allocator.freeListPosition + 4 * index + 4 ≤ arena.allocator.temporaryBlockPosition := by
  have hlt : index < 38 := hindex
  rw [h.temporary]
  omega

end Layout

theorem bytesForUnits_eq {units : Nat} (h : units < 2 ^ 28) : bytesForUnits units = .ok (12 * units) :=
  mul_of_lt (show unitSize * units < 2 ^ 32 by rw [unitSize]; omega) _

/-! ### Running -/

section run

variable {α β : Type} {arena : Arena}

/-- A question to the allocator is out of the way. -/
theorem asks_bind {f : SubAllocator → Except Error α} {g : α → ArenaM β} {value : α}
    (h : f arena.allocator = .ok value) : (asks f >>= g) arena = g value arena :=
  step_ok (by rw [asks, h]; rfl)

/-- So is a change of the heap. -/
theorem onHeap_bind {m : HeapM α} {g : α → ArenaM β} {value : α} {heap : Heap}
    (h : m arena.heap = .ok (value, heap)) :
    (onHeap m >>= g) arena = g value { arena with heap } :=
  step_ok (by rw [onHeap, h]; rfl)

theorem onHeap_eq {m : HeapM α} {value : α} {heap : Heap} (h : m arena.heap = .ok (value, heap)) :
    onHeap m arena = .ok (value, { arena with heap }) := by
  rw [onHeap, h]
  rfl

/-- A look at the heap. -/
theorem look_bind {f : Heap → Except Error α} {g : α → ArenaM β} {value : α}
    (h : f arena.heap = .ok value) : (onHeap (Heap.read f) >>= g) arena = g value arena :=
  onHeap_bind (by rw [Heap.read, h]; rfl)

theorem update_bind {f : SubAllocator → SubAllocator} {g : Unit → ArenaM β} :
    (update f >>= g) arena = g () { arena with allocator := f arena.allocator } := rfl

end run

/-! ### Blocks -/

/-- The block of a class at an address. -/
def freeBlock (block : Nat × Nat) : Nat × Nat := (block.2, 12 * classUnits block.1)

/-- The addresses of the free blocks of a class, in their order. -/
def listOf (free : List (Nat × Nat)) (index : Nat) : List Nat :=
  (free.filter fun block => decide (block.1 = index)).map Prod.snd

theorem listOf_cons (block : Nat × Nat) (free : List (Nat × Nat)) (index : Nat) :
    listOf (block :: free) index
      = if block.1 = index then block.2 :: listOf free index else listOf free index := by
  unfold listOf
  rw [List.filter_cons]
  by_cases h : block.1 = index
  · rw [if_pos (decide_eq_true h), if_pos h, List.map_cons]
  · rw [if_neg (by simpa using h), if_neg h]

theorem listOf_append (free more : List (Nat × Nat)) (index : Nat) :
    listOf (free ++ more) index = listOf free index ++ listOf more index := by
  rw [listOf, List.filter_append, List.map_append]
  rfl

theorem mem_listOf {free : List (Nat × Nat)} {index a : Nat} :
    a ∈ listOf free index ↔ (index, a) ∈ free := by
  simp [listOf]

/-- The first block of a class in a list. -/
theorem listOf_eq_cons {free : List (Nat × Nat)} {index a : Nat} {rest : List Nat}
    (h : listOf free index = a :: rest) :
    ∃ before after, free = before ++ (index, a) :: after ∧ listOf before index = [] ∧
      listOf after index = rest := by
  induction free with
  | nil => cases h
  | cons block free ih =>
      rw [listOf_cons] at h
      by_cases hblock : block.1 = index
      · rw [if_pos hblock] at h
        obtain ⟨rfl, rfl⟩ := List.cons.inj h
        exact ⟨[], free, by rw [← hblock]; rfl, rfl, rfl⟩
      · rw [if_neg hblock] at h
        obtain ⟨before, after, rfl, hbefore, hafter⟩ := ih h
        refine ⟨block :: before, after, rfl, ?_, hafter⟩
        rw [listOf_cons, if_neg hblock, hbefore]

/-- The free blocks are on their lists, and tile the units together with the rest. -/
structure Lists (arena : Arena) (free rest : List (Nat × Nat)) : Prop where
  layout : Layout arena
  chains : ∀ index < nIndexes, Chain arena.heap.bytes
    (arena.allocator.freeListPosition + 4 * index) (listOf free index)
  classes : ∀ block ∈ free, block.1 < nIndexes
  tiles : Tiles arena.allocator.unitsStart (arenaEnd arena) (free.map freeBlock ++ rest)
  start_pos : 0 < arena.allocator.unitsStart

namespace Lists

variable {arena : Arena} {free rest rest' : List (Nat × Nat)} {index a : Nat}

/-- A free block lies in the arena. -/
theorem block_bounds (h : Lists arena free rest) {block : Nat × Nat} (hmem : block ∈ free) :
    0 < block.2 ∧ block.2 + 12 ≤ arenaEnd arena ∧
      block.2 + 12 * classUnits block.1 ≤ arenaEnd arena := by
  have hpos := classUnits_pos block.1 (h.classes block hmem)
  have hbounds := h.tiles.block_bounds (List.mem_append_left _ (List.mem_map_of_mem hmem))
    (show 0 < 12 * classUnits block.1 by omega)
  have hstart := h.start_pos
  have hlo : arena.allocator.unitsStart ≤ block.2 := hbounds.1
  have hhi : block.2 + 12 * classUnits block.1 ≤ arenaEnd arena := hbounds.2
  omega

theorem perm (h : Lists arena free rest) (hperm : rest.Perm rest') : Lists arena free rest' :=
  ⟨h.layout, h.chains, h.classes, h.tiles.perm (List.Perm.append_left _ hperm), h.start_pos⟩

/-- The rest may be cut otherwise, as long as it covers the same. -/
theorem recut (h : Lists arena free rest) (hsame : ∀ x, covers rest' x = covers rest x) :
    Lists arena free rest' := by
  refine ⟨h.layout, h.chains, h.classes, h.tiles.congr fun x => ?_, h.start_pos⟩
  rw [covers_append, covers_append, hsame]

/-- The heads are in memory, behind the arena. -/
theorem head_fits (h : Lists arena free rest) (hindex : index < nIndexes) :
    arenaEnd arena < arena.allocator.freeListPosition + 4 * index ∧
      arena.allocator.freeListPosition + 4 * index + 4 ≤ arena.heap.bytes.length := by
  have hend := h.layout.arenaEnd_lt
  have hhead := h.layout.head_fits hindex
  have hlength := h.layout.length
  omega

/-- The free lists depend on the links of the free blocks and on the heads. -/
theorem memory (h : Lists arena free rest) {bytes : Bytes}
    (hlength : bytes.length = arena.heap.bytes.length)
    (hfree : ∀ block ∈ free, ∀ x, In (freeBlock block) x →
      get bytes x = get arena.heap.bytes x)
    (hheads : ∀ x, arena.allocator.freeListPosition ≤ x →
      x < arena.allocator.temporaryBlockPosition → get bytes x = get arena.heap.bytes x) :
    Lists { arena with heap := ⟨bytes⟩ } free rest := by
  refine ⟨h.layout.memory hlength, fun index hindex => ?_, h.classes, h.tiles, h.start_pos⟩
  refine (h.chains index hindex).congr fun c hc => word_congr fun x hle hlt => ?_
  rcases List.mem_cons.mp hc with rfl | hc
  · have hhead := h.layout.head_fits hindex
    exact hheads x (by omega) (by omega)
  · have hmem := mem_listOf.mp hc
    have hpos := classUnits_pos index hindex
    exact hfree _ hmem x ⟨hle, by show x < c + 12 * classUnits index; omega⟩

theorem next_head (h : Lists arena free rest) (hindex : index < nIndexes) :
    RarNode.next (arena.allocator.freeListPosition + 4 * index) arena.heap
      = .ok (word 4 arena.heap.bytes (arena.allocator.freeListPosition + 4 * index)) :=
  RarNode.next_eq (h.head_fits hindex).2 h.layout.length_lt

end Lists

/-- Only the memory, and only where `own` says and at the heads. -/
structure Touches (own : Nat → Prop) (arena arena' : Arena) : Prop where
  allocator : arena'.allocator = arena.allocator
  length : arena'.heap.bytes.length = arena.heap.bytes.length
  get : ∀ x, x < arena.allocator.freeListPosition ∨ arena.allocator.temporaryBlockPosition ≤ x →
    ¬ own x → get arena'.heap.bytes x = get arena.heap.bytes x

namespace Touches

variable {own own' : Nat → Prop} {arena arena' arena'' : Arena}

theorem refl (arena : Arena) : Touches own arena arena := ⟨rfl, rfl, fun _ _ _ => rfl⟩

theorem mono (h : Touches own arena arena') (hown : ∀ x, own x → own' x) :
    Touches own' arena arena' :=
  ⟨h.allocator, h.length, fun x hx hnot => h.get x hx (mt (hown x) hnot)⟩

theorem trans (h : Touches own arena arena') (h' : Touches own arena' arena'') :
    Touches own arena arena'' := by
  refine ⟨h'.allocator.trans h.allocator, h'.length.trans h.length, fun x hx hnot => ?_⟩
  rw [h'.get x (by rw [h.allocator]; exact hx) hnot, h.get x hx hnot]

end Touches

namespace Lists

variable {arena : Arena} {free rest : List (Nat × Nat)} {index a : Nat}

/-- A block is put on the list of its class. -/
theorem insertNode (h : Lists arena free ((a, 12 * classUnits index) :: rest))
    (hindex : index < nIndexes) :
    ∃ arena', Ppmd.insertNode a index arena = .ok ((), arena') ∧
      Lists arena' ((index, a) :: free) rest ∧
      Touches (In (a, 12 * classUnits index)) arena arena' := by
  have hpos := classUnits_pos index hindex
  have hlen := h.layout.length_lt
  obtain ⟨hbehind, hfits⟩ := h.head_fits hindex
  have hbounds := h.tiles.block_bounds (List.mem_append_right _ List.mem_cons_self)
    (show 0 < 12 * classUnits index by omega)
  have hlo : arena.allocator.unitsStart ≤ a := hbounds.1
  have hhi : a + 12 * classUnits index ≤ arenaEnd arena := hbounds.2
  have hstart := h.start_pos
  have hafits : a + 4 ≤ arena.heap.bytes.length := by omega
  -- The new block and a free one.
  have hother : ∀ block ∈ free, Apart block.2 a := by
    intro block hmem
    have hsize := classUnits_pos block.1 (h.classes block hmem)
    have hcut := (h.tiles.perm List.perm_middle).before_or_after
      (List.mem_append_left _ (List.mem_map_of_mem hmem)) (show 0 < 12 * classUnits index by omega)
      (show 0 < 12 * classUnits block.1 by omega)
    have hcut' : a + 12 * classUnits index ≤ block.2 ∨ block.2 + 12 * classUnits block.1 ≤ a := hcut
    unfold Apart
    omega
  -- A head and anything in the arena.
  have hheads : ∀ other < nIndexes, ∀ c, c + 12 ≤ arenaEnd arena →
      Apart c (arena.allocator.freeListPosition + 4 * other) := by
    intro other hother c hc
    have hbehind' := (h.head_fits hother).1
    unfold Apart
    omega
  refine ⟨{ arena with heap := ⟨push arena.heap.bytes
    (arena.allocator.freeListPosition + 4 * index) a⟩ }, ?_, ⟨?_, ?_, ?_, ?_, h.start_pos⟩, ?_⟩
  · unfold Ppmd.insertNode
    rw [asks_bind (h.layout.head_eq hindex _), look_bind (h.next_head hindex),
      onHeap_bind (RarNode.setNext_eq hafits hlen),
      onHeap_eq (RarNode.setNext_eq (by rw [length_putWord]; exact hfits)
        (by rw [length_putWord]; exact hlen))]
    rfl
  · exact h.layout.memory length_push
  · intro other hother'
    rw [listOf_cons]
    by_cases hsame : index = other
    · obtain rfl := hsame
      rw [if_pos rfl]
      refine (h.chains index hindex).push hfits hafits (by omega) (by omega) ?_ fun c hc => ?_
      · unfold Apart
        omega
      · have hmem := mem_listOf.mp hc
        exact ⟨hheads index hindex c (h.block_bounds hmem).2.1, hother _ hmem⟩
    · rw [if_neg hsame]
      refine (h.chains other hother').congr fun c hc => ?_
      refine word_push_of_apart hfits hafits ?_ ?_
      · rcases List.mem_cons.mp hc with rfl | hc
        · unfold Apart
          omega
        · exact hheads index hindex c (h.block_bounds (mem_listOf.mp hc)).2.1
      · rcases List.mem_cons.mp hc with rfl | hc
        · have hbehind' := (h.head_fits hother').1
          unfold Apart
          omega
        · exact hother _ (mem_listOf.mp hc)
  · intro block hmem
    rcases List.mem_cons.mp hmem with rfl | hmem
    · exact hindex
    · exact h.classes block hmem
  · exact h.tiles.perm List.perm_middle
  · have hhead := h.layout.head_fits hindex
    refine ⟨rfl, length_push, fun x hx hnot => get_push hfits hafits (by omega) ?_⟩
    by_contra hin
    exact hnot ⟨by omega, by show x < a + 12 * classUnits index; omega⟩

/-- The first block of a list is taken off. -/
theorem removeNode (h : Lists arena free rest) (hindex : index < nIndexes) {more : List Nat}
    (hlist : listOf free index = a :: more) :
    ∃ free' arena', Ppmd.removeNode index arena = .ok (a, arena') ∧
      Lists arena' free' ((a, 12 * classUnits index) :: rest) ∧
      Touches (fun _ => False) arena arena' ∧ free.Perm ((index, a) :: free') ∧
      listOf free' index = more ∧ ∀ other, other ≠ index → listOf free' other = listOf free other := by
  obtain ⟨before, after, rfl, hbefore, hafter⟩ := listOf_eq_cons hlist
  have hlen := h.layout.length_lt
  obtain ⟨hbehind, hfits⟩ := h.head_fits hindex
  have hmem : (index, a) ∈ before ++ (index, a) :: after :=
    List.mem_append_right _ List.mem_cons_self
  obtain ⟨hpos, hbounds, -⟩ := h.block_bounds hmem
  dsimp only at hpos hbounds
  have hchain := h.chains index hindex
  rw [hlist] at hchain
  have hword : word 4 arena.heap.bytes (arena.allocator.freeListPosition + 4 * index) = a := hchain.1
  have hindex' : listOf (before ++ after) index = more := by
    rw [listOf_append, hbefore, List.nil_append, hafter]
  have hothers : ∀ other, other ≠ index →
      listOf (before ++ after) other = listOf (before ++ (index, a) :: after) other := by
    intro other hne
    rw [listOf_append, listOf_append, listOf_cons, if_neg (Ne.symm hne)]
  have hsub : ∀ block ∈ before ++ after, block ∈ before ++ (index, a) :: after := by
    intro block hblock
    rcases List.mem_append.mp hblock with hblock | hblock
    · exact List.mem_append_left _ hblock
    · exact List.mem_append_right _ (List.mem_cons_of_mem _ hblock)
  have hheads : ∀ c, c + 12 ≤ arenaEnd arena →
      Apart c (arena.allocator.freeListPosition + 4 * index) := by
    intro c hc
    unfold Apart
    omega
  refine ⟨before ++ after, { arena with heap := ⟨pop arena.heap.bytes
    (arena.allocator.freeListPosition + 4 * index) a⟩ }, ?_, ⟨?_, ?_, ?_, ?_, h.start_pos⟩, ?_,
    List.perm_middle, hindex', hothers⟩
  · unfold Ppmd.removeNode
    rw [asks_bind (h.layout.head_eq hindex _), look_bind (h.next_head hindex), hword,
      if_neg (Nat.pos_iff_ne_zero.mp hpos),
      look_bind (RarNode.next_eq (by omega) hlen), onHeap_bind (RarNode.setNext_eq hfits hlen)]
    rfl
  · exact h.layout.memory length_pop
  · intro other hother
    by_cases hsame : other = index
    · obtain rfl := hsame
      rw [hindex']
      refine hchain.pop hfits fun c hc => hheads c ?_
      have hc' : c ∈ listOf (before ++ (other, a) :: after) other := hlist ▸ List.mem_cons_of_mem _ hc
      exact (h.block_bounds (mem_listOf.mp hc')).2.1
    · rw [hothers other hsame]
      refine (h.chains other hother).congr fun c hc => word_putWord_of_apart hfits ?_
      rcases List.mem_cons.mp hc with rfl | hc
      · omega
      · exact hheads c (h.block_bounds (mem_listOf.mp hc)).2.1
  · exact fun block hblock => h.classes block (hsub block hblock)
  · refine h.tiles.perm ?_
    have hperm : ((before ++ (index, a) :: after).map freeBlock).Perm
        (freeBlock (index, a) :: (before ++ after).map freeBlock) := List.perm_middle.map freeBlock
    exact (hperm.append_right rest).trans List.perm_middle.symm
  · have hhead := h.layout.head_fits hindex
    exact ⟨rfl, length_pop, fun x hx _ => get_pop hfits (by omega)⟩

/-! ### Splitting -/

/-- A block in hand is cut in two. -/
theorem cut {m n : Nat} (h : Lists arena free ((a, 12 * (m + n)) :: rest)) :
    Lists arena free ((a, 12 * m) :: (a + 12 * m, 12 * n) :: rest) := by
  refine h.recut fun x => ?_
  have hcut := covers_cut a (12 * m) (12 * n) x
  rw [← Nat.mul_add] at hcut
  simp only [covers_cons, covers_nil] at hcut ⊢
  omega

/-- What is split off is a block of some class, once a smaller one is off it. -/
theorem splitRemainder {remainder difference : Nat}
    (h : Lists arena free ((remainder, 12 * difference) :: rest)) (hpos : 0 < difference)
    (hle : difference ≤ 128) :
    ∃ difference' remainder' free' arena',
      Ppmd.splitRemainder difference remainder (classOf (difference - 1)) arena
        = .ok ((difference', remainder'), arena') ∧
      Lists arena' free' ((remainder', 12 * difference') :: rest) ∧
      Touches (In (remainder, 12 * difference)) arena arena' ∧
      0 < difference' ∧ difference' ≤ 128 ∧
      classUnits (classOf (difference' - 1)) = difference' ∧
      remainder ≤ remainder' ∧ remainder' + 12 * difference' = remainder + 12 * difference := by
  have hclass := classOf_lt (difference - 1) (by omega)
  unfold Ppmd.splitRemainder
  rw [asks_bind (h.layout.unitsAt_eq hclass)]
  by_cases hexact : classUnits (classOf (difference - 1)) = difference
  · rw [if_neg (not_not_intro hexact)]
    exact ⟨difference, remainder, free, arena, rfl, h, Touches.refl arena, hpos, hle, hexact,
      Nat.le_refl _, rfl⟩
  · rw [if_pos hexact]
    obtain ⟨hone, hbelow, hsmall⟩ := classOf_split (difference - 1) (by omega) (by omega)
    rw [Nat.sub_add_cancel hpos] at hbelow hsmall
    have hlower : classOf (difference - 1) - 1 < nIndexes := by omega
    generalize hi : classOf (difference - 1) - 1 = i at hbelow hsmall hlower
    have hsum : classUnits i + (difference - classUnits i) = difference := by omega
    have hcut := h
    rw [← hsum] at hcut
    obtain ⟨arena', hrun, hlists, htouches⟩ := hcut.cut.insertNode hlower
    have hunits : unitsAt i arena'.allocator = .ok (classUnits i) := hlists.layout.unitsAt_eq hlower
    have hlast := classUnits_le i hlower
    have hfits := h.tiles.block_bounds (List.mem_append_right _ List.mem_cons_self)
      (show 0 < 12 * difference by omega)
    have hend : remainder + 12 * difference ≤ arenaEnd arena := hfits.2
    have hlt := h.layout.arenaEnd_lt
    have hheap := h.layout.length_lt
    have hlen := h.layout.length
    have htemp := h.layout.temporary
    rw [lift_ok (sub_of_le hone _), hi, step_ok hrun, asks_bind hunits,
      lift_ok (bytesForUnits_eq (by omega)), lift_ok (add_of_lt (by omega) _),
      lift_ok (sub_of_le (by omega) _)]
    obtain ⟨-, hfew⟩ := classOf_small (difference - classUnits i) (by omega) (by omega)
    refine ⟨difference - classUnits i, remainder + 12 * classUnits i, _, arena', rfl, hlists, ?_,
      by omega, by omega, ?_, by omega, by omega⟩
    · refine htouches.mono fun x hx => ⟨hx.1, Nat.lt_of_lt_of_le hx.2 ?_⟩
      show remainder + 12 * classUnits i ≤ remainder + 12 * difference
      omega
    · rw [(classOf_small (difference - classUnits i) (by omega) (by omega)).1, hfew]

/-- A block is split, and the part that is not kept is free. -/
theorem splitBlock {oldIndex newIndex : Nat}
    (h : Lists arena free ((a, 12 * classUnits oldIndex) :: rest)) (hold : oldIndex < nIndexes)
    (hnew : newIndex < oldIndex) :
    ∃ free' arena', Ppmd.splitBlock a oldIndex newIndex arena = .ok ((), arena') ∧
      Lists arena' free' ((a, 12 * classUnits newIndex) :: rest) ∧
      Touches (fun x => a + 12 * classUnits newIndex ≤ x ∧ x < a + 12 * classUnits oldIndex)
        arena arena' := by
  have hnew' : newIndex < nIndexes := Nat.lt_trans hnew hold
  have hless := classUnits_lt oldIndex hold newIndex hnew
  have hle := classUnits_le oldIndex hold
  have hpos := classUnits_pos newIndex hnew'
  have hfits := h.tiles.block_bounds (List.mem_append_right _ List.mem_cons_self)
    (show 0 < 12 * classUnits oldIndex by omega)
  have hend : a + 12 * classUnits oldIndex ≤ arenaEnd arena := hfits.2
  have hlt := h.layout.arenaEnd_lt
  have hheap := h.layout.length_lt
  have hlen := h.layout.length
  have htemp := h.layout.temporary
  generalize hd : classUnits oldIndex - classUnits newIndex = difference
  have hsum : classUnits newIndex + difference = classUnits oldIndex := by omega
  have hcut := h
  rw [← hsum] at hcut
  obtain ⟨difference', remainder', free', arena', hrun, hlists, htouches, hpos', hle', hexact, hge,
    hsame⟩ := (hcut.cut.perm (List.Perm.swap _ _ _)).splitRemainder (show 0 < difference by omega)
      (by omega)
  have hclass := classOf_lt (difference' - 1) (by omega)
  have hindex : unitIndex (difference' - 1) arena'.allocator = .ok (classOf (difference' - 1)) :=
    hlists.layout.unitIndex_eq (by omega)
  have hput : Lists arena' free' ((remainder', 12 * classUnits (classOf (difference' - 1))) ::
      (a, 12 * classUnits newIndex) :: rest) := by
    rw [hexact]
    exact hlists
  obtain ⟨arena'', hrun', hlists'', htouches'⟩ := hput.insertNode hclass
  refine ⟨_, arena'', ?_, hlists'', ?_⟩
  · unfold Ppmd.splitBlock
    rw [asks_bind (h.layout.unitsAt_eq hold), asks_bind (h.layout.unitsAt_eq hnew'),
      lift_ok (sub_of_le (by omega) _), lift_ok (bytesForUnits_eq (by omega)),
      lift_ok (add_of_lt (by omega) _), hd, lift_ok (sub_of_le (by omega) _),
      asks_bind (h.layout.unitIndex_eq (by omega)), step_ok hrun]
    dsimp only
    rw [lift_ok (sub_of_le hpos' _), asks_bind hindex, hrun']
  · refine (htouches.mono fun x hx => ?_).trans (htouches'.mono fun x hx => ?_)
    · obtain ⟨hx, hx'⟩ := hx
      exact ⟨hx, by dsimp only at hx'; omega⟩
    · obtain ⟨hx, hx'⟩ := hx
      dsimp only at hx hx'
      rw [hexact] at hx'
      omega

end Lists

end Ppmd

end Un7z
