/-
The suballocator over whole runs.

A run starts with an initialised arena and is a sequence of operations on live blocks, the
blocks that were handed out and not yet given back.  Between two operations their owner
writes to them, and to the text below the units, or the arena is initialised again.
`Reachable` are the arenas of such a run, with the live blocks and for how many units each
was asked; `Invariant` is what holds of them all.
-/
import Un7z.CoderProperties
import Un7z.Proofs.LiveBlocks

namespace Un7z

namespace Ppmd

open ByteMemory LinkedBlocks Cover SubAllocator

/-! ### The start -/

/-- `SubAllocator::new`, and then `initialize`. -/
def start (size : Nat) : Except Error Arena := do
  let arena ← SubAllocator.new size
  let (_, arena) ← initializeUnits arena
  pure arena

theorem headPositions_eq (count : Nat) : ∀ position, position + 4 * count < 2 ^ 32 →
    headPositions count position
      = .ok ((List.range count).map fun index => position + 4 * index) := by
  induction count with
  | zero => intro position _; rfl
  | succ count ih =>
      intro position h
      rw [headPositions, add_of_lt (show position + rarNodeSize < 2 ^ 32 by
        show position + 4 < _; omega), except_ok_bind, ih _ (by show position + 4 + _ < _; omega),
        except_ok_bind, List.range_succ_eq_map, List.map_cons, List.map_map]
      refine congrArg (fun rest => Except.ok (position :: rest)) (List.map_congr_left fun index _ => ?_)
      show position + 4 + 4 * index = position + 4 * (index + 1)
      omega

/-- Memory that has just been made. -/
theorem get_new (size x : Nat) : get (Heap.new size).bytes x = 0 := by
  rw [Heap.new, ByteMemory.get, List.getElem?_replicate]
  split <;> rfl

/-- What `initialize` relies on: the layout, and tables that are empty or filled before. -/
structure Ready (arena : Arena) : Prop where
  position : arena.allocator.freeListPosition = arena.allocator.size / 12 * 12 + 13
  temporary : arena.allocator.temporaryBlockPosition = arena.allocator.freeListPosition + 152
  length : arena.heap.bytes.length = arena.allocator.temporaryBlockPosition + 12
  length_lt : arena.heap.bytes.length < 2 ^ 32
  heapStart : arena.allocator.heapStart = 1
  heads : arena.allocator.freeList
    = (List.range nIndexes).map fun index => arena.allocator.freeListPosition + 4 * index
  units : fillIndexToUnits arena.allocator.indexToUnits = .ok classTable
  indexes : fillUnitsToIndex classTable 128 1 0 arena.allocator.unitsToIndex = .ok indexTable
  pad : get arena.heap.bytes (arenaEnd arena) = 0

/-- A new arena is ready. -/
theorem new_ready {size : Nat} (h : size + 177 < 2 ^ 32) :
    ∃ arena, SubAllocator.new size = .ok arena ∧ Ready arena ∧ arena.allocator.size = size := by
  have hunits : size / 12 * 12 ≤ size := Nat.div_mul_le_self size 12
  generalize hk : size / 12 * 12 = k at hunits
  have hmul : mul (size / fixedUnitSize) unitSize "PPMd allocation size overflows" = .ok k := by
    rw [← hk]
    exact mul_of_lt (by show size / 12 * 12 < _; omega) _
  have hbytes : add k unitSize "PPMd allocation size overflows" = .ok (k + 12) :=
    add_of_lt (by show k + 12 < _; omega) _
  have hlists : mul nIndexes rarNodeSize "PPMd free-list size overflows" = .ok 152 := rfl
  have hstart (detail : String) : add 1 (k + 12) detail = .ok (k + 13) := by
    rw [add_of_lt (by omega), Nat.add_comm 1]
  have hheads := headPositions_eq nIndexes (k + 13) (by show _ + 4 * 38 < _; omega)
  have hnew := @get_new (k + 13 + 152 + 12) (1 + size)
  rw [SubAllocator.new, hmul, except_ok_bind, hbytes, except_ok_bind, hlists, except_ok_bind, hstart,
    except_ok_bind, add_of_lt (by omega), except_ok_bind,
    add_of_lt (by show k + 13 + 152 + 12 < _; omega), except_ok_bind]
  dsimp only
  rw [hstart, except_ok_bind, sub_of_le (by show 12 ≤ _; omega), except_ok_bind, hstart,
    except_ok_bind, hheads, except_ok_bind]
  refine ⟨_, rfl, ⟨?_, rfl, List.length_replicate, ?_, rfl, rfl, fillIndexToUnits_eq,
    fillUnitsToIndex_eq, hnew⟩, rfl⟩
  · show k + 13 = size / 12 * 12 + 13
    rw [hk]
  · show (List.replicate (k + 13 + 152 + 12) (0 : UInt8)).length < 2 ^ 32
    rw [List.length_replicate]
    omega

/-- So is one that was in use. -/
theorem Sound.ready {arena : Arena} {free blocks : List (Nat × Nat)} (h : Sound arena free blocks) :
    Ready arena := by
  have hlayout := h.lists.layout
  refine ⟨hlayout.position, hlayout.temporary, hlayout.length, hlayout.length_lt, hlayout.heapStart,
    hlayout.heads, ?_, ?_, h.pad⟩
  · rw [hlayout.units]
    decide +kernel
  · rw [hlayout.indexes]
    decide +kernel

/-- Then the lists are empty, and there is a gap of seven eighths, in units, behind the text. -/
theorem Ready.initializeUnits {arena : Arena} (h : Ready arena) (hpos : 0 < arena.allocator.size) :
    ∃ arena', Ppmd.initializeUnits arena = .ok ((), arena') ∧ Sound arena' [] [] ∧
      arena'.allocator.size = arena.allocator.size := by
  obtain ⟨allocator, heap⟩ := arena
  obtain ⟨hposition, htemporary, hlength, hlengthlt, hheapStart, hheads, hunits, hindexes, hpad⟩ := h
  dsimp only at hposition htemporary hlength hlengthlt hheapStart hheads hunits hindexes hpad hpos
  obtain ⟨size, hsize⟩ : ∃ size, allocator.size = size := ⟨_, rfl⟩
  obtain ⟨units, hseventh⟩ : ∃ units, size / 8 / 12 * 7 = units := ⟨_, rfl⟩
  rw [hsize] at hposition hpos
  have hask : asks pure ⟨allocator, heap⟩ = .ok (allocator, ⟨allocator, heap⟩) := rfl
  have hlists : mul nIndexes rarNodeSize "PPMd free-list size overflows" = .ok 152 := rfl
  have hcleared := Heap.clear_eq (show allocator.freeListPosition + 152 ≤ heap.bytes.length by omega)
    hlengthlt
  have hmul : checkedMul 32 (size / 8 / fixedUnitSize) 7 = some units := by
    rw [← hseventh]
    exact checkedMul_of_lt (by show size / 8 / 12 * 7 < _; omega)
  have hsizeTwo : fixedUnitSize * units = 12 * units := rfl
  have hrealTwo : 12 * units / fixedUnitSize * unitSize = 12 * units := by
    show 12 * units / 12 * 12 = _
    omega
  have hrealOne : (size - 12 * units) / fixedUnitSize * unitSize + (size - 12 * units) % fixedUnitSize
      = size - 12 * units := by
    rw [Nat.mul_comm]
    exact Nat.div_add_mod _ 12
  have hhigh : 1 + (size - 12 * units) + 12 * units = 1 + size := by omega
  refine ⟨⟨{ allocator with
      text := 1
      lowUnit := 1 + (size - 12 * units)
      unitsStart := 1 + (size - 12 * units)
      fakeUnitsStart := 1 + (size - 12 * units)
      highUnit := 1 + size
      indexToUnits := classTable
      glueCount := 0
      unitsToIndex := indexTable },
    ⟨Heap.cleared heap.bytes allocator.freeListPosition 152⟩⟩, ?_, ?_, rfl⟩
  · rw [Ppmd.initializeUnits, lift_ok hlists, step_ok hask, onHeap_bind hcleared, update_bind]
    dsimp only
    rw [hsize, hheapStart, hmul, lift_ok (orFormatError_some _ _),
      lift_ok (mul_of_lt (show fixedUnitSize * units < 2 ^ 32 by show 12 * units < _; omega) _),
      hsizeTwo, lift_ok (mul_of_lt (by omega) _), hrealTwo, lift_ok (sub_of_le (by omega) _),
      lift_ok (mul_of_lt (by omega) _), lift_ok (add_of_lt (by omega) _), hrealOne,
      lift_ok (add_of_lt (by omega) _), lift_ok (add_of_lt (by omega) _),
      lift_ok (add_of_lt (by omega) _), lift_ok hunits, lift_ok hindexes, hhigh]
    rfl
  · have hfits : allocator.freeListPosition + 152 ≤ heap.bytes.length := by omega
    have hkept := Heap.length_cleared hfits
    refine ⟨⟨⟨by rw [← hsize] at hposition; exact hposition, htemporary, hkept.trans hlength,
        hkept.symm ▸ hlengthlt, hheapStart, hheads, rfl, rfl⟩, fun index hindex => ?_,
      fun block hblock => absurd hblock List.not_mem_nil, fun x => ?_, ?_⟩, ?_, ?_, ?_, ?_, rfl, ?_, ?_⟩
    · -- the heads are among the bytes that were cleared
      have hlt : index < 38 := hindex
      have hhead : ∀ x, allocator.freeListPosition + 4 * index ≤ x →
          x < allocator.freeListPosition + 4 * index + 4 →
          get (Heap.cleared heap.bytes allocator.freeListPosition 152) x = 0 := fun x hle hless => by
        rw [Heap.get_cleared hfits, if_pos ⟨by omega, by omega⟩]
      exact word_eq_zero hhead
    · show covers [(1 + (size - 12 * units), 1 + size - (1 + (size - 12 * units)))] x
        = if 1 + (size - 12 * units) ≤ x ∧ x < 1 + allocator.size then 1 else 0
      have hin : In (1 + (size - 12 * units), 1 + size - (1 + (size - 12 * units))) x
          ↔ 1 + (size - 12 * units) ≤ x ∧ x < 1 + allocator.size := by
        unfold In
        omega
      rw [covers_cons, covers_nil, Nat.add_zero]
      simp only [hin]
    · show 0 < 1 + (size - 12 * units)
      omega
    · show 1 + (size - 12 * units) ≤ 1 + size
      omega
    · show (1 + size - (1 + (size - 12 * units))) % 12 = 0
      omega
    · show 1 + size ≤ 1 + allocator.size
      omega
    · show 1 + (size - 12 * units) ≤ 1 + allocator.size
      omega
    · show 1 < 1 + (size - 12 * units)
      omega
    · have hend : 1 + allocator.size < allocator.freeListPosition := by omega
      show get (Heap.cleared heap.bytes allocator.freeListPosition 152) (1 + allocator.size) = 0
      rw [Heap.get_cleared hfits, if_neg (by omega)]
      exact hpad

/-- The arena that a run starts with. -/
theorem start_sound {size : Nat} (hmin : ppmdMinimumMemoryBytes ≤ size) (h : size + 177 < 2 ^ 32) :
    ∃ arena, start size = .ok arena ∧ Sound arena [] [] ∧ arena.allocator.size = size := by
  have hsize : 2048 ≤ size := hmin
  obtain ⟨fresh, hnew, hready, hsame⟩ := new_ready h
  obtain ⟨arena, hrun, hsound, hkept⟩ := hready.initializeUnits (by omega)
  refine ⟨arena, ?_, hsound, hkept.trans hsame⟩
  rw [start, hnew, except_ok_bind, hrun]
  rfl

/-! ### Operations -/

/-- The memory of a live block, which was asked for so many units. -/
def liveBlock (live : Nat × Nat) : Nat × Nat := (live.1, 12 * classUnits (classOf (live.2 - 1)))

inductive Operation
  | allocateContext
  | allocateUnits (units : Nat)
  | expandUnits (old oldUnits : Nat)
  | shrinkUnits (old oldUnits newUnits : Nat)
  | freeUnits (address oldUnits : Nat)

namespace Operation

/-- An operation with its address, if it returns one. -/
def run : Operation → ArenaM (Option Nat)
  | allocateContext => do
      let address ← Ppmd.allocateContext
      pure (some address)
  | allocateUnits units => do
      let address ← Ppmd.allocateUnits units
      pure (some address)
  | expandUnits old oldUnits => do
      let address ← Ppmd.expandUnits old oldUnits
      pure (some address)
  | shrinkUnits old oldUnits newUnits => do
      let address ← Ppmd.shrinkUnits old oldUnits newUnits
      pure (some address)
  | freeUnits address oldUnits => do
      Ppmd.freeUnits address oldUnits
      pure none

/-- Blocks are asked for with up to 128 units, and passed back with the units they have. -/
def Allowed (live : List (Nat × Nat)) : Operation → Prop
  | allocateContext => True
  | allocateUnits units => 1 ≤ units ∧ units ≤ 128
  | expandUnits old oldUnits => (old, oldUnits) ∈ live ∧ oldUnits < 128
  | shrinkUnits old oldUnits newUnits => (old, oldUnits) ∈ live ∧ 1 ≤ newUnits ∧ newUnits ≤ oldUnits
  | freeUnits address oldUnits => (address, oldUnits) ∈ live

/-- The live blocks that an operation is not about. -/
def others (live : List (Nat × Nat)) : Operation → List (Nat × Nat)
  | allocateContext => live
  | allocateUnits _ => live
  | expandUnits old oldUnits => live.erase (old, oldUnits)
  | shrinkUnits old oldUnits _ => live.erase (old, oldUnits)
  | freeUnits address oldUnits => live.erase (address, oldUnits)

/-- The units of the block that an operation returns. -/
def units : Operation → Nat
  | allocateContext => 1
  | allocateUnits units => units
  | expandUnits _ oldUnits => oldUnits + 1
  | shrinkUnits _ _ newUnits => newUnits
  | freeUnits _ oldUnits => oldUnits

/-- The live blocks behind an operation. -/
def after (live : List (Nat × Nat)) (operation : Operation) : Option Nat → List (Nat × Nat)
  | none => operation.others live
  | some address => if address = 0 then live else (address, operation.units) :: operation.others live

end Operation
/-! ### The invariant -/

/-- What the owners of some live blocks see of an operation: nothing. -/
def Untouched (live : List (Nat × Nat)) (arena arena' : Arena) : Prop :=
  ∀ block ∈ live, ∀ x, In (liveBlock block) x →
    get arena'.heap.bytes x = get arena.heap.bytes x

theorem Leaves.untouched {live : List (Nat × Nat)} {arena arena' : Arena}
    (h : Leaves (live.map liveBlock) arena arena') : Untouched live arena arena' :=
  fun _ hblock => h.blocks _ (List.mem_map_of_mem hblock)

/-- No live block begins with the stamp of a free one. -/
def Stampless (arena : Arena) (live : List (Nat × Nat)) : Prop :=
  ∀ block ∈ live, word 2 arena.heap.bytes block.1 ≠ 0xffff

structure Invariant (size : Nat) (arena : Arena) (live free : List (Nat × Nat)) : Prop where
  size : arena.allocator.size = size
  units : ∀ block ∈ live, 1 ≤ block.2 ∧ block.2 ≤ 128
  sound : Sound arena free (live.map liveBlock)

namespace Invariant

variable {size : Nat} {arena arena' : Arena} {live free free' : List (Nat × Nat)}

theorem unstamped (h : Invariant size arena live free) (hstampless : Stampless arena live) :
    Unstamped arena (live.map liveBlock) := by
  refine ⟨fun block hblock _ => ?_, h.sound.pad⟩
  obtain ⟨owned, howned, rfl⟩ := List.mem_map.mp hblock
  obtain ⟨hpos, hle⟩ := h.units owned howned
  have hclass := classUnits_pos _ (classOf_lt (owned.2 - 1) (by omega))
  exact ⟨by show 12 ≤ 12 * classUnits (classOf (owned.2 - 1)); omega, hstampless owned howned⟩

theorem roomy (h : Invariant size arena live free) (hsize : size + 1537 < 2 ^ 32) : Sound.Roomy arena := by
  have hsame := h.size
  unfold Sound.Roomy arenaEnd
  omega

/-- A live block in front of the others. -/
theorem take (h : Invariant size arena live free) {block : Nat × Nat} (hblock : block ∈ live) :
    Sound arena free (liveBlock block :: (live.erase block).map liveBlock) :=
  h.sound.perm ((List.perm_cons_erase hblock).map liveBlock)

/-- The others stay, and there may be one more. -/
theorem others (h : Invariant size arena live free) (block : Nat × Nat)
    (hleaves : Leaves ((live.erase block).map liveBlock) arena arena')
    (hsound : Sound arena' free' ((live.erase block).map liveBlock)) :
    Invariant size arena' (live.erase block) free' :=
  ⟨hleaves.size.trans h.size, fun other hother => h.units other (List.mem_of_mem_erase hother), hsound⟩

theorem add (hsize : arena'.allocator.size = size)
    (hunits : ∀ block ∈ live, 1 ≤ block.2 ∧ block.2 ≤ 128) {a units : Nat} (hpos : 1 ≤ units)
    (hle : units ≤ 128)
    (hsound : Sound arena' free' ((a, 12 * classUnits (classOf (units - 1))) :: live.map liveBlock)) :
    Invariant size arena' ((a, units) :: live) free' :=
  ⟨hsize, List.forall_mem_cons.mpr ⟨⟨hpos, hle⟩, hunits⟩, hsound⟩

/-- An allocation has one live block more, or returns zero. -/
theorem allocates (h : Invariant size arena live free) {f : ArenaM Nat} {operation : Operation}
    (hothers : operation.others live = live) (hpos : 1 ≤ operation.units)
    (hle : operation.units ≤ 128)
    (hallocates : Allocates f (classOf (operation.units - 1)) (live.map liveBlock) arena) :
    ∃ address arena' free', f arena = .ok (address, arena') ∧
      Invariant size arena' (operation.after live (some address)) free' ∧
      Untouched live arena arena' := by
  obtain ⟨address, free', arena', hrun, hleaves, hresult⟩ := hallocates
  refine ⟨address, arena', free', hrun, ?_, hleaves.untouched⟩
  have hsize := hleaves.size.trans h.size
  rw [Operation.after]
  rcases hresult with ⟨hzero, hsound⟩ | ⟨hne, hsound⟩
  · rw [if_pos hzero]
    exact ⟨hsize, h.units, hsound⟩
  · rw [if_neg hne, hothers]
    exact add hsize h.units hpos hle hsound

end Invariant

/-- One operation keeps the invariant, and does not fail. -/
theorem Invariant.step {size : Nat} {arena : Arena} {live free : List (Nat × Nat)}
    (h : Invariant size arena live free) (hsize : size + 1537 < 2 ^ 32)
    (hstampless : Stampless arena live) {operation : Operation} (hallowed : operation.Allowed live) :
    ∃ result arena' free', operation.run arena = .ok (result, arena') ∧
      Invariant size arena' (operation.after live result) free' ∧
      Untouched (operation.others live) arena arena' ∧
      (result = some 0 → Untouched live arena arena') := by
  have hroomy := h.roomy hsize
  have hunstamped := h.unstamped hstampless
  cases operation with
  | allocateContext =>
      obtain ⟨address, arena', free', hrun, hinvariant, huntouched⟩ :=
        @Invariant.allocates _ _ _ _ h _ .allocateContext rfl (Nat.le_refl 1) (by decide)
          (h.sound.allocateContext hunstamped)
      exact ⟨some address, arena', free', step_ok hrun, hinvariant, huntouched, fun _ => huntouched⟩
  | allocateUnits units =>
      obtain ⟨hpos, hle⟩ := hallowed
      obtain ⟨address, arena', free', hrun, hinvariant, huntouched⟩ :=
        @Invariant.allocates _ _ _ _ h _ (.allocateUnits units) rfl hpos hle
          (h.sound.allocateUnits hroomy hunstamped hpos hle)
      exact ⟨some address, arena', free', step_ok hrun, hinvariant, huntouched, fun _ => huntouched⟩
  | expandUnits old oldUnits =>
      obtain ⟨hblock, hless⟩ := hallowed
      obtain ⟨hpos, -⟩ := h.units _ hblock
      have hperm := (List.perm_cons_erase hblock).map liveBlock
      obtain ⟨address, free', arena', hrun, hresult⟩ := (h.take hblock).expandUnits hroomy
        ⟨fun block hmem => hunstamped.blocks block (hperm.mem_iff.mpr hmem), hunstamped.pad⟩ hpos hless
      rcases hresult with ⟨rfl, hsound, hleaves⟩ | ⟨hne, hsound, hleaves, -⟩
      · have huntouched : Untouched live arena arena' :=
          (hleaves.subset fun _ hmem => hperm.mem_iff.mp hmem).untouched
        refine ⟨some 0, arena', free', step_ok hrun, ?_, fun block hother => ?_, fun _ => huntouched⟩
        · exact ⟨hleaves.size.trans h.size, h.units, hsound.perm hperm.symm⟩
        · exact huntouched block (List.mem_of_mem_erase hother)
      · refine ⟨some address, arena', free', step_ok hrun, ?_, hleaves.untouched, fun hzero => ?_⟩
        · rw [Operation.after, if_neg hne]
          exact Invariant.add (hleaves.size.trans h.size)
            (fun other hother => h.units other (List.mem_of_mem_erase hother)) (Nat.succ_pos _)
            hless hsound
        · exact absurd (Option.some.inj hzero) hne
  | shrinkUnits old oldUnits newUnits =>
      obtain ⟨hblock, hpos, hle⟩ := hallowed
      obtain ⟨-, hunits⟩ := h.units _ hblock
      obtain ⟨address, free', arena', hrun, hne, hsound, hleaves, -⟩ :=
        (h.take hblock).shrinkUnits hpos hle hunits
      refine ⟨some address, arena', free', step_ok hrun, ?_, hleaves.untouched, fun hzero => ?_⟩
      · rw [Operation.after, if_neg hne]
        exact Invariant.add (hleaves.size.trans h.size)
          (fun other hother => h.units other (List.mem_of_mem_erase hother)) hpos
          (Nat.le_trans hle hunits) hsound
      · exact absurd (Option.some.inj hzero) hne
  | freeUnits address oldUnits =>
      obtain ⟨hpos, hunits⟩ := h.units _ hallowed
      obtain ⟨free', arena', hrun, hsound, hleaves⟩ := (h.take hallowed).freeUnits hpos hunits
      exact ⟨none, arena', free', step_ok hrun, h.others _ hleaves hsound, hleaves.untouched,
        fun hnone => by cases hnone⟩

/-! ### Runs -/

/-- Between two operations the owner of the live blocks writes to them and below the units, and
the text moves there. -/
structure Writes (live : List (Nat × Nat)) (arena arena' : Arena) : Prop where
  allocator : arena'.allocator = { arena.allocator with text := arena'.allocator.text }
  text : arena'.allocator.text < arena.allocator.unitsStart
  length : arena'.heap.bytes.length = arena.heap.bytes.length
  same : ∀ x, arena.allocator.unitsStart ≤ x → (∀ block ∈ live, ¬ In (liveBlock block) x) →
    get arena'.heap.bytes x = get arena.heap.bytes x

/-- The arenas of a run, with the live blocks.  The arena may be initialised again; then no block
is live any more. -/
inductive Reachable (size : Nat) : Arena → List (Nat × Nat) → Prop
  | start {arena : Arena} : Ppmd.start size = .ok arena → Reachable size arena []
  | restart {arena arena' : Arena} {live : List (Nat × Nat)} :
      Reachable size arena live → initializeUnits arena = .ok ((), arena') → Reachable size arena' []
  | write {arena arena' : Arena} {live : List (Nat × Nat)} :
      Reachable size arena live → Writes live arena arena' → Reachable size arena' live
  | step {arena arena' : Arena} {live : List (Nat × Nat)} {operation : Operation}
      {result : Option Nat} :
      Reachable size arena live → Stampless arena live → operation.Allowed live →
      operation.run arena = .ok (result, arena') →
      Reachable size arena' (operation.after live result)

/-- What the owner writes is of no consequence. -/
theorem Invariant.write {size : Nat} {arena arena' : Arena} {live free : List (Nat × Nat)}
    (h : Invariant size arena live free) (hwrites : Writes live arena arena') :
    Invariant size arena' live free := by
  obtain ⟨allocator, ⟨bytes⟩⟩ := arena'
  obtain ⟨hallocator, htext, hlength, hsame⟩ := hwrites
  dsimp only at hallocator htext hlength hsame
  have hwritten := h.sound.write hlength fun x hx hnot => hsame x hx fun block hblock =>
    hnot _ (List.mem_map_of_mem hblock)
  rw [hallocator]
  exact ⟨h.size, h.units, hwritten.setText htext⟩

/-- Every arena of a run keeps the invariant. -/
theorem Reachable.invariant {size : Nat} (hmin : ppmdMinimumMemoryBytes ≤ size)
    (hsize : size + 1537 < 2 ^ 32) {arena : Arena} {live : List (Nat × Nat)}
    (h : Reachable size arena live) : ∃ free, Invariant size arena live free := by
  induction h with
  | start hstart =>
      obtain ⟨arena', hstart', hsound, hsame⟩ := start_sound hmin (show size + 177 < 2 ^ 32 by omega)
      obtain rfl := Except.ok.inj (hstart'.symm.trans hstart)
      exact ⟨[], hsame, fun block hblock => absurd hblock List.not_mem_nil, hsound⟩
  | restart _ hrun ih =>
      obtain ⟨free, hinvariant⟩ := ih
      obtain ⟨arena', hrun', hsound, hsame⟩ := hinvariant.sound.ready.initializeUnits
        (hinvariant.size ▸ Nat.lt_of_lt_of_le (by decide) hmin)
      obtain ⟨-, rfl⟩ := Prod.mk.inj (Except.ok.inj (hrun'.symm.trans hrun))
      exact ⟨[], hsame.trans hinvariant.size,
        fun block hblock => absurd hblock List.not_mem_nil, hsound⟩
  | write _ hwrites ih =>
      obtain ⟨free, hinvariant⟩ := ih
      exact ⟨free, hinvariant.write hwrites⟩
  | step _ hstampless hallowed hrun ih =>
      obtain ⟨free, hinvariant⟩ := ih
      obtain ⟨result, arena', free', hrun', hnext, -⟩ := hinvariant.step hsize hstampless hallowed
      obtain ⟨rfl, rfl⟩ := Prod.mk.inj (Except.ok.inj (hrun'.symm.trans hrun))
      exact ⟨free', hnext⟩

/-- The free blocks and the live ones are where they belong: each free block is on the list of
its class and on no other, no two blocks overlap, and all lie between the text and the end. -/
structure Placed (arena : Arena) (free live : List (Nat × Nat)) : Prop where
  chains : ∀ index < nIndexes, Chain arena.heap.bytes
    (arena.allocator.freeListPosition + 4 * index) (listOf free index)
  classes : ∀ block ∈ free, block.1 < nIndexes
  nodup : (free.map Prod.snd).Nodup
  apart : (free.map freeBlock ++ live.map liveBlock).Pairwise fun block other =>
    block.1 + block.2 ≤ other.1 ∨ other.1 + other.2 ≤ block.1
  inside : ∀ block ∈ free.map freeBlock ++ live.map liveBlock,
    arena.allocator.unitsStart ≤ block.1 ∧ block.1 + block.2 ≤ arenaEnd arena
  text : arena.allocator.text < arena.allocator.unitsStart

theorem Invariant.placed {size : Nat} {arena : Arena} {live free : List (Nat × Nat)}
    (h : Invariant size arena live free) : Placed arena free live := by
  have hlists := h.sound.lists
  have hpos : ∀ block ∈ free.map freeBlock ++ live.map liveBlock, 0 < block.2 := by
    intro block hblock
    rcases List.mem_append.mp hblock with hblock | hblock
    · obtain ⟨node, hnode, rfl⟩ := List.mem_map.mp hblock
      exact Nat.mul_pos (by decide) (classUnits_pos _ (hlists.classes node hnode))
    · obtain ⟨owned, howned, rfl⟩ := List.mem_map.mp hblock
      obtain ⟨hone, hle⟩ := h.units owned howned
      exact Nat.mul_pos (by decide) (classUnits_pos _ (classOf_lt (owned.2 - 1) (by omega)))
  have hcovers : ∀ x, covers (free.map freeBlock ++ live.map liveBlock) x ≤ 1 := by
    intro x
    have hle := hlists.tiles.covers_le x
    rw [covers_append, covers_cons] at hle
    rw [covers_append]
    omega
  have hmem : ∀ block ∈ free.map freeBlock ++ live.map liveBlock,
      block ∈ free.map freeBlock ++ gap arena :: live.map liveBlock := fun block hblock =>
    (List.mem_append.mp hblock).elim (List.mem_append_left _)
      fun hlive => List.mem_append_right _ (List.mem_cons_of_mem _ hlive)
  refine ⟨hlists.chains, hlists.classes, ?_, pairwise_before_or_after hcovers hpos,
    fun block hblock => hlists.tiles.block_bounds (hmem block hblock) (hpos block hblock),
    h.sound.text_lt⟩
  have hstarts := nodup_starts hcovers hpos
  rw [List.map_append, List.map_map] at hstarts
  exact (List.nodup_append.mp hstarts).1

/-- Gluing joins free blocks, and leaves none behind. -/
theorem Invariant.glueFreeBlocks {size : Nat} {arena : Arena} {live free : List (Nat × Nat)}
    (h : Invariant size arena live free) (hstampless : Stampless arena live) :
    ∃ arena' free', Ppmd.glueFreeBlocks arena = .ok ((), arena') ∧ Invariant size arena' live free' ∧
      Untouched live arena arena' ∧
      ∀ x, covers (free'.map freeBlock) x = covers (free.map freeBlock) x := by
  obtain ⟨free', arena', hrun, hsound, hleaves, hallocator⟩ :=
    h.sound.glueFreeBlocks (h.unstamped hstampless)
  refine ⟨arena', free', hrun, ⟨hleaves.size.trans h.size, h.units, hsound⟩, hleaves.untouched,
    fun x => ?_⟩
  have hbefore := h.sound.lists.tiles x
  have hafter := hsound.lists.tiles x
  have hgap : gap arena' = gap arena := by rw [gap, gap, hallocator]
  have harena : arenaEnd arena' = arenaEnd arena := by rw [arenaEnd, arenaEnd, hallocator]
  rw [hallocator, harena, ← hbefore, hgap, covers_append, covers_append] at hafter
  exact Nat.add_right_cancel hafter

end Ppmd

end Un7z
