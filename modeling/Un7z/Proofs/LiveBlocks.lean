/-
The operations of the suballocator keep what is handed out.

`Sound` is the invariant between two operations: the free blocks, the gap and the blocks
that are handed out tile the units, and the units begin behind the text.  An allocation
hands out one block more or none; either way it leaves the other blocks alone, which is what
`Leaves` says.
-/
import Un7z.Proofs.GlueFreeBlocks

namespace Un7z

namespace Ppmd

open ByteMemory LinkedBlocks Cover SubAllocator

/-- What is neither handed out nor free. -/
def gap (arena : Arena) : Nat × Nat :=
  (arena.allocator.lowUnit, arena.allocator.highUnit - arena.allocator.lowUnit)

/-- What an operation leaves alone: the text, some blocks, and everything below the units. -/
structure Leaves (blocks : List (Nat × Nat)) (arena arena' : Arena) : Prop where
  size : arena'.allocator.size = arena.allocator.size
  text : arena'.allocator.text = arena.allocator.text
  length : arena'.heap.bytes.length = arena.heap.bytes.length
  start : arena'.allocator.unitsStart ≤ arena.allocator.unitsStart
  blocks : ∀ block ∈ blocks, ∀ x, In block x → get arena'.heap.bytes x = get arena.heap.bytes x
  below : ∀ x < arena'.allocator.unitsStart, get arena'.heap.bytes x = get arena.heap.bytes x

namespace Leaves

variable {blocks blocks' : List (Nat × Nat)} {arena arena' arena'' : Arena}

theorem refl (arena : Arena) : Leaves blocks arena arena :=
  ⟨rfl, rfl, rfl, Nat.le_refl _, fun _ _ _ _ => rfl, fun _ _ => rfl⟩

theorem trans (h : Leaves blocks arena arena') (h' : Leaves blocks arena' arena'') :
    Leaves blocks arena arena'' := by
  refine ⟨h'.size.trans h.size, h'.text.trans h.text, h'.length.trans h.length,
    Nat.le_trans h'.start h.start, fun block hblock x hx => ?_, fun x hx => ?_⟩
  · rw [h'.blocks block hblock x hx, h.blocks block hblock x hx]
  · rw [h'.below x hx, h.below x (Nat.lt_of_lt_of_le hx h'.start)]

theorem subset (h : Leaves blocks arena arena') (hsub : ∀ block ∈ blocks', block ∈ blocks) :
    Leaves blocks' arena arena' :=
  ⟨h.size, h.text, h.length, h.start, fun block hblock => h.blocks block (hsub block hblock), h.below⟩

theorem of_cons {block : Nat × Nat} (h : Leaves (block :: blocks) arena arena') :
    Leaves blocks arena arena' :=
  h.subset fun _ hmem => List.mem_cons_of_mem _ hmem

end Leaves

/-- The invariant between two operations, with the free blocks and those that are handed out. -/
structure Sound (arena : Arena) (free blocks : List (Nat × Nat)) : Prop where
  lists : Lists arena free (gap arena :: blocks)
  low_le : arena.allocator.lowUnit ≤ arena.allocator.highUnit
  gap_units : (arena.allocator.highUnit - arena.allocator.lowUnit) % 12 = 0
  high_le : arena.allocator.highUnit ≤ arenaEnd arena
  start_le : arena.allocator.unitsStart ≤ arenaEnd arena
  fake : arena.allocator.fakeUnitsStart = arena.allocator.unitsStart
  text_lt : arena.allocator.text < arena.allocator.unitsStart
  pad : get arena.heap.bytes (arenaEnd arena) = 0

namespace Sound

variable {arena arena' : Arena} {free free' blocks blocks' : List (Nat × Nat)} {own : Nat → Prop}
  {a index : Nat}

theorem perm (h : Sound arena free blocks) (hperm : blocks.Perm blocks') :
    Sound arena free blocks' :=
  ⟨h.lists.perm (hperm.cons _), h.low_le, h.gap_units, h.high_le, h.start_le, h.fake, h.text_lt, h.pad⟩

/-- A change inside the units keeps the invariant when it keeps the lists. -/
theorem of_touches (h : Sound arena free blocks) (htouches : Touches own arena arena')
    (hlists : Lists arena' free' (gap arena :: blocks'))
    (hown : ∀ x, own x → arena.allocator.unitsStart ≤ x ∧ x < arenaEnd arena) :
    Sound arena' free' blocks' := by
  have hend := h.lists.layout.arenaEnd_lt
  have hallocator := htouches.allocator
  have harena : arenaEnd arena' = arenaEnd arena := by rw [arenaEnd, arenaEnd, hallocator]
  refine ⟨by rw [gap, hallocator]; exact hlists, by rw [hallocator]; exact h.low_le,
    by rw [hallocator]; exact h.gap_units, by rw [hallocator, harena]; exact h.high_le,
    by rw [hallocator, harena]; exact h.start_le,
    by rw [hallocator]; exact h.fake, by rw [hallocator]; exact h.text_lt, ?_⟩
  rw [harena, htouches.get _ (Or.inl hend) fun hin => Nat.lt_irrefl _ (hown _ hin).2]
  exact h.pad

/-- And it leaves alone what it does not touch. -/
theorem leaves_of_touches (h : Sound arena free blocks) (htouches : Touches own arena arena')
    (hown : ∀ x, own x → arena.allocator.unitsStart ≤ x) {rest : List (Nat × Nat)}
    (hrest : ∀ block ∈ rest, ∀ x, In block x → x < arenaEnd arena ∧ ¬ own x) :
    Leaves rest arena arena' := by
  have hend := h.lists.layout.arenaEnd_lt
  have hallocator := htouches.allocator
  have hstart := h.start_le
  refine ⟨by rw [hallocator], by rw [hallocator], htouches.length, Nat.le_of_eq (by rw [hallocator]),
    fun block hblock x hx => ?_, fun x hx => ?_⟩
  · obtain ⟨hlt, hnot⟩ := hrest block hblock x hx
    exact htouches.get x (Or.inl (by omega)) hnot
  · rw [hallocator] at hx
    refine htouches.get x (Or.inl (by omega)) fun hin => ?_
    have hle := hown x hin
    omega

/-- The same of what gluing changes. -/
theorem of_keeps (h : Sound arena free blocks) (hkeeps : Keeps blocks arena arena')
    (hlists : Lists arena' free' (gap arena :: blocks)) :
    Sound arena' free' blocks ∧ Leaves blocks arena arena' := by
  have hend := h.lists.layout.arenaEnd_lt
  have hallocator := hkeeps.allocator
  have hstart := h.start_le
  have harena : arenaEnd arena' = arenaEnd arena := by rw [arenaEnd, arenaEnd, hallocator]
  refine ⟨⟨by rw [gap, hallocator]; exact hlists, by rw [hallocator]; exact h.low_le,
    by rw [hallocator]; exact h.gap_units, by rw [hallocator, harena]; exact h.high_le,
    by rw [hallocator, harena]; exact h.start_le,
    by rw [hallocator]; exact h.fake, by rw [hallocator]; exact h.text_lt, ?_⟩,
    ⟨by rw [hallocator], by rw [hallocator], hkeeps.length, Nat.le_of_eq (by rw [hallocator]),
      fun block hblock x hx => ?_, fun x hx => ?_⟩⟩
  · rw [harena, hkeeps.get _ hend fun hspare => Nat.lt_irrefl _ hspare.2.1]
    exact h.pad
  · have hlt := (h.lists.tiles.bounds
      (List.mem_append_right _ (List.mem_cons_of_mem _ hblock)) hx).2
    refine hkeeps.get x (by omega) fun hspare => ?_
    have hpos := covers_pos hblock hx
    have hzero := hspare.2.2
    omega
  · rw [hallocator] at hx
    exact hkeeps.get x (by omega) fun hspare => Nat.lt_irrefl _ (Nat.lt_of_lt_of_le hx hspare.1)

/-- A block that is handed out is not one of the others. -/
theorem apart {block : Nat × Nat} (h : Sound arena free (block :: blocks)) {other : Nat × Nat}
    (hother : other ∈ blocks) {x : Nat} (hx : In other x) : ¬ In block x := by
  have hperm : (free.map freeBlock ++ gap arena :: block :: blocks).Perm
      (block :: (free.map freeBlock ++ gap arena :: blocks)) :=
    (List.Perm.append_left _ (List.Perm.swap _ _ _)).trans List.perm_middle
  exact fun hin => (h.lists.tiles.perm hperm).apart
    (List.mem_append_right _ (List.mem_cons_of_mem _ hother)) hin hx

theorem bounds (h : Sound arena free blocks) {block : Nat × Nat} (hblock : block ∈ blocks) {x : Nat}
    (hx : In block x) : arena.allocator.unitsStart ≤ x ∧ x < arenaEnd arena :=
  h.lists.tiles.bounds (List.mem_append_right _ (List.mem_cons_of_mem _ hblock)) hx

/-- A block goes back to its list. -/
theorem insertNode (h : Sound arena free ((a, 12 * classUnits index) :: blocks))
    (hindex : index < nIndexes) :
    ∃ arena', Ppmd.insertNode a index arena = .ok ((), arena') ∧
      Sound arena' ((index, a) :: free) blocks ∧ Leaves blocks arena arena' := by
  obtain ⟨arena', hrun, hlists, htouches⟩ :=
    (h.lists.perm (List.Perm.swap _ _ _)).insertNode hindex
  have hown := fun x (hx : In (a, 12 * classUnits index) x) => h.bounds List.mem_cons_self hx
  exact ⟨arena', hrun, h.of_touches htouches hlists hown,
    h.leaves_of_touches htouches (fun x hx => (hown x hx).1) fun block hblock x hx =>
      ⟨(h.bounds (List.mem_cons_of_mem _ hblock) hx).2, h.apart hblock hx⟩⟩

/-- The first block of a list is handed out. -/
theorem removeNode (h : Sound arena free blocks) (hindex : index < nIndexes) {more : List Nat}
    (hlist : listOf free index = a :: more) :
    ∃ free' arena', Ppmd.removeNode index arena = .ok (a, arena') ∧ a ≠ 0 ∧
      Sound arena' free' ((a, 12 * classUnits index) :: blocks) ∧ Leaves blocks arena arena' := by
  obtain ⟨free', arena', hrun, hlists, htouches, -, -, -⟩ := h.lists.removeNode hindex hlist
  have hmem : a ∈ listOf free index := hlist ▸ List.mem_cons_self
  have hpos := (h.lists.block_bounds (mem_listOf.mp hmem)).1
  refine ⟨free', arena', hrun, Nat.pos_iff_ne_zero.mp hpos,
    h.of_touches htouches (hlists.perm (List.Perm.swap _ _ _)) fun x hx => hx.elim,
    h.leaves_of_touches htouches (fun x hx => hx.elim) fun block hblock x hx =>
      ⟨(h.bounds hblock hx).2, id⟩⟩

/-- A block that is handed out is cut to a smaller class. -/
theorem splitBlock {oldIndex newIndex : Nat}
    (h : Sound arena free ((a, 12 * classUnits oldIndex) :: blocks)) (hold : oldIndex < nIndexes)
    (hnew : newIndex < oldIndex) :
    ∃ free' arena', Ppmd.splitBlock a oldIndex newIndex arena = .ok ((), arena') ∧
      Sound arena' free' ((a, 12 * classUnits newIndex) :: blocks) ∧
      Leaves ((a, 12 * classUnits newIndex) :: blocks) arena arena' := by
  obtain ⟨free', arena', hrun, hlists, htouches⟩ :=
    (h.lists.perm (List.Perm.swap _ _ _)).splitBlock hold hnew
  have hless := classUnits_lt oldIndex hold newIndex hnew
  have hin : ∀ x, a + 12 * classUnits newIndex ≤ x ∧ x < a + 12 * classUnits oldIndex →
      In (a, 12 * classUnits oldIndex) x := fun x hx => ⟨by dsimp only; omega, hx.2⟩
  have hown := fun x hx => h.bounds List.mem_cons_self (hin x hx)
  refine ⟨free', arena', hrun,
    h.of_touches htouches (hlists.perm (List.Perm.swap _ _ _)) hown,
    h.leaves_of_touches htouches (fun x hx => (hown x hx).1) fun block hblock x hx => ?_⟩
  rcases List.mem_cons.mp hblock with heq | hblock
  · rw [heq] at hx
    obtain ⟨hle, hlt⟩ := hx
    dsimp only at hle hlt
    have hbounds := (h.bounds List.mem_cons_self (show In (a, 12 * classUnits oldIndex) x from
      ⟨hle, by dsimp only; omega⟩)).2
    exact ⟨hbounds, fun hin => by omega⟩
  · exact ⟨(h.bounds (List.mem_cons_of_mem _ hblock) hx).2, fun hx' => h.apart hblock hx (hin x hx')⟩

/-- The head of a list says whether there is a block. -/
theorem head_eq_zero_iff (h : Sound arena free blocks) (hindex : index < nIndexes) :
    word 4 arena.heap.bytes (arena.allocator.freeListPosition + 4 * index) = 0
      ↔ listOf free index = [] :=
  (h.lists.chains index hindex).eq_nil_iff

/-- The glue count is of no consequence for what is where. -/
theorem setGlueCount (h : Sound arena free blocks) (glueCount : Nat) :
    Sound { arena with allocator := { arena.allocator with glueCount } } free blocks :=
  ⟨⟨h.lists.layout.ranges _ _ _ _ _ _, h.lists.chains, h.lists.classes, h.lists.tiles,
    h.lists.start_pos⟩,
    h.low_le, h.gap_units, h.high_le, h.start_le, h.fake, h.text_lt, h.pad⟩

theorem leaves_glueCount (arena : Arena) (glueCount : Nat) :
    Leaves blocks arena { arena with allocator := { arena.allocator with glueCount } } :=
  ⟨rfl, rfl, rfl, Nat.le_refl _, fun _ _ _ _ => rfl, fun _ _ => rfl⟩

/-- Nor is the text, as long as it ends before the units. -/
theorem setText (h : Sound arena free blocks) {text : Nat} (htext : text < arena.allocator.unitsStart) :
    Sound { arena with allocator := { arena.allocator with text } } free blocks :=
  ⟨⟨h.lists.layout.ranges _ _ _ _ _ _, h.lists.chains, h.lists.classes, h.lists.tiles,
    h.lists.start_pos⟩,
    h.low_le, h.gap_units, h.high_le, h.start_le, h.fake, htext, h.pad⟩

/-- The units may begin lower, where the text does not reach. -/
theorem lower (h : Sound arena free blocks) {size : Nat}
    (hroom : size < arena.allocator.unitsStart - arena.allocator.text) :
    Sound { arena with allocator := { arena.allocator with
        fakeUnitsStart := arena.allocator.fakeUnitsStart - size
        unitsStart := arena.allocator.unitsStart - size } } free
      ((arena.allocator.unitsStart - size, size) :: blocks) := by
  have htext := h.text_lt
  have hfake := h.fake
  have hstart := h.start_le
  refine ⟨⟨h.lists.layout.ranges _ _ _ _ _ _, h.lists.chains, h.lists.classes, ?_, ?_⟩, h.low_le, h.gap_units, h.high_le, ?_, ?_, ?_, h.pad⟩
  · have hperm : (free.map freeBlock ++ gap arena ::
        (arena.allocator.unitsStart - size, size) :: blocks).Perm
        ((arena.allocator.unitsStart - size, size) ::
          (free.map freeBlock ++ gap arena :: blocks)) :=
      (List.Perm.append_left _ (List.Perm.swap _ _ _)).trans List.perm_middle
    have htiles := h.lists.tiles.extend (show size ≤ arena.allocator.unitsStart by omega) hstart
    exact htiles.perm hperm.symm
  · show 0 < arena.allocator.unitsStart - size
    omega
  · show arena.allocator.unitsStart - size ≤ arenaEnd arena
    omega
  · show arena.allocator.fakeUnitsStart - size = arena.allocator.unitsStart - size
    rw [hfake]
  · show arena.allocator.text < arena.allocator.unitsStart - size
    omega

end Sound

/-! ### Allocation -/

/-- An allocation hands out a block of a class, or returns zero, and does not fail. -/
def Allocates (f : ArenaM Nat) (index : Nat) (blocks : List (Nat × Nat)) (arena : Arena) : Prop :=
  ∃ a free' arena', f arena = .ok (a, arena') ∧ Leaves blocks arena arena' ∧
    ((a = 0 ∧ Sound arena' free' blocks) ∨
      (a ≠ 0 ∧ Sound arena' free' ((a, 12 * classUnits index) :: blocks)))

namespace Sound

variable {arena arena' : Arena} {free free' blocks : List (Nat × Nat)} {a index : Nat}

/-- An allocation from a list that is not empty. -/
theorem allocates_removeNode (h : Sound arena free blocks) (hindex : index < nIndexes)
    (hlist : listOf free index ≠ []) : Allocates (Ppmd.removeNode index) index blocks arena := by
  obtain ⟨a, more, hcons⟩ := List.exists_cons_of_ne_nil hlist
  obtain ⟨free', arena', hrun, hpos, hsound, hleaves⟩ := h.removeNode hindex hcons
  exact ⟨a, free', arena', hrun, hleaves, Or.inr ⟨hpos, hsound⟩⟩

/-- The search for a larger class ends, with one that has a block if there is one. -/
theorem findLarger (h : Sound arena free blocks) (fuel : Nat) {larger : Nat}
    (hlarger : larger < nIndexes) :
    Ppmd.findLarger fuel larger arena = .ok (none, arena) ∨
      ∃ found, larger < found ∧ found < nIndexes ∧ listOf free found ≠ [] ∧
        Ppmd.findLarger fuel larger arena = .ok (some found, arena) := by
  induction fuel generalizing larger with
  | zero => exact Or.inl rfl
  | succ fuel ih =>
      have hlt : larger < 38 := hlarger
      rw [Ppmd.findLarger, lift_ok (add_of_lt (by omega) _)]
      by_cases hlast : larger + 1 = nIndexes
      · rw [if_pos hlast]
        exact Or.inl rfl
      · have hnext : larger + 1 < nIndexes := by omega
        rw [if_neg hlast, asks_bind (h.lists.layout.head_eq hnext _),
          look_bind (h.lists.next_head hnext)]
        by_cases hlist : listOf free (larger + 1) = []
        · rw [if_neg (not_not_intro ((h.head_eq_zero_iff hnext).mpr hlist))]
          rcases ih hnext with hnone | ⟨found, hgt, hfound, hblock, hrun⟩
          · exact Or.inl hnone
          · exact Or.inr ⟨found, by omega, hfound, hblock, hrun⟩
        · rw [if_pos (mt (h.head_eq_zero_iff hnext).mp hlist)]
          exact Or.inr ⟨larger + 1, by omega, hnext, hlist, rfl⟩

/-- When no list has a block, the units begin lower, or nothing is handed out. -/
theorem lowerUnitsStart (h : Sound arena free blocks) (hindex : index < nIndexes)
    (hglue : 0 < arena.allocator.glueCount) :
    Allocates (Ppmd.lowerUnitsStart index) index blocks arena := by
  have hle := classUnits_le index hindex
  have htext := h.text_lt
  have hfake := h.fake
  have hask : asks pure arena = .ok (arena.allocator, arena) := rfl
  have hunits : unitsAt index { arena.allocator with glueCount := arena.allocator.glueCount - 1 }
      = .ok (classUnits index) := h.lists.layout.unitsAt_eq hindex
  unfold Allocates
  rw [Ppmd.lowerUnitsStart, step_ok hask, checkedSub_of_le hglue,
    lift_ok (orFormatError_some _ _), update_bind, asks_bind hunits,
    lift_ok (bytesForUnits_eq (by omega)), lift_ok (mul_of_lt (by show 12 * _ < _; omega) _),
    lift_ok (sub_of_le (by omega) _)]
  by_cases hroom : arena.allocator.fakeUnitsStart - arena.allocator.text > fixedUnitSize * classUnits index
  · rw [if_pos hroom]
    have hroom' : 12 * classUnits index < arena.allocator.unitsStart - arena.allocator.text := by
      rw [← hfake]
      exact hroom
    rw [lift_ok (sub_of_le (by show 12 * _ ≤ _; omega) _), lift_ok (sub_of_le (by omega) _),
      update_bind]
    refine ⟨_, free, _, rfl, ⟨rfl, rfl, rfl, Nat.sub_le _ _, fun _ _ _ _ => rfl, fun _ _ => rfl⟩,
      Or.inr ⟨by omega, ?_⟩⟩
    exact (h.setGlueCount (arena.allocator.glueCount - 1)).lower hroom'
  · rw [if_neg hroom]
    exact ⟨0, free, _, rfl, leaves_glueCount arena _, Or.inl ⟨rfl, h.setGlueCount _⟩⟩

/-- A larger block is split. -/
theorem allocateLarger (h : Sound arena free blocks) (hindex : index < nIndexes)
    (hglue : 0 < arena.allocator.glueCount) :
    Allocates (Ppmd.allocateLarger index) index blocks arena := by
  rcases h.findLarger nIndexes hindex with hnone | ⟨found, hgt, hfound, hlist, hsome⟩
  · obtain ⟨a, free', arena', hrun, hrest⟩ := h.lowerUnitsStart hindex hglue
    exact ⟨a, free', arena', by rw [Ppmd.allocateLarger, step_ok hnone]; exact hrun, hrest⟩
  · obtain ⟨a, more, hcons⟩ := List.exists_cons_of_ne_nil hlist
    obtain ⟨free₁, arena₁, hremove, hpos, hsound₁, hleaves₁⟩ := h.removeNode hfound hcons
    obtain ⟨free₂, arena₂, hsplit, hsound₂, hleaves₂⟩ := hsound₁.splitBlock hfound hgt
    refine ⟨a, free₂, arena₂, ?_, hleaves₁.trans hleaves₂.of_cons, Or.inr ⟨hpos, hsound₂⟩⟩
    rw [Ppmd.allocateLarger, step_ok hsome]
    show (Ppmd.removeNode found >>= fun address =>
      Ppmd.splitBlock address found index >>= fun _ => pure address) arena = _
    rw [step_ok hremove, step_ok hsplit]
    rfl

/-- Gluing keeps the invariant. -/
theorem glueFreeBlocks (h : Sound arena free blocks) (hunstamped : Unstamped arena blocks) :
    ∃ free' arena', Ppmd.glueFreeBlocks arena = .ok ((), arena') ∧ Sound arena' free' blocks ∧
      Leaves blocks arena arena' ∧ arena'.allocator = arena.allocator := by
  obtain ⟨free', arena', hrun, hlists, hkeeps⟩ := h.lists.glueFreeBlocks h.low_le h.gap_units hunstamped
  obtain ⟨hsound, hleaves⟩ := h.of_keeps hkeeps hlists
  exact ⟨free', arena', hrun, hsound, hleaves, hkeeps.allocator⟩

theorem allocateUnitsRare (h : Sound arena free blocks) (hunstamped : Unstamped arena blocks)
    (hindex : index < nIndexes) : Allocates (Ppmd.allocateUnitsRare index) index blocks arena := by
  have hask : asks pure arena = .ok (arena.allocator, arena) := rfl
  by_cases hglue : arena.allocator.glueCount = 0
  · have hsound := h.setGlueCount 255
    have hunstamped' : Unstamped { arena with allocator := { arena.allocator with glueCount := 255 } }
        blocks := ⟨hunstamped.blocks, hunstamped.pad⟩
    obtain ⟨free₁, arena₁, hrun, hsound₁, hleaves₁, hallocator⟩ := hsound.glueFreeBlocks hunstamped'
    have hcount : 0 < arena₁.allocator.glueCount := by
      rw [hallocator]
      exact Nat.succ_pos 254
    have hleaves := (@leaves_glueCount blocks arena 255).trans hleaves₁
    have hnext := hsound₁.lists.next_head hindex
    unfold Allocates
    rw [Ppmd.allocateUnitsRare, step_ok hask, if_pos hglue, update_bind, step_ok hrun,
      asks_bind (hsound₁.lists.layout.head_eq hindex _), look_bind hnext]
    by_cases hlist : listOf free₁ index = []
    · rw [if_neg (not_not_intro ((hsound₁.head_eq_zero_iff hindex).mpr hlist))]
      obtain ⟨a, free', arena', hrun', hleaves', hresult⟩ := hsound₁.allocateLarger hindex hcount
      exact ⟨a, free', arena', hrun', hleaves.trans hleaves', hresult⟩
    · rw [if_pos (mt (hsound₁.head_eq_zero_iff hindex).mp hlist)]
      obtain ⟨a, free', arena', hrun', hleaves', hresult⟩ := hsound₁.allocates_removeNode hindex hlist
      exact ⟨a, free', arena', hrun', hleaves.trans hleaves', hresult⟩
  · unfold Allocates
    rw [Ppmd.allocateUnitsRare, step_ok hask, if_neg hglue]
    exact h.allocateLarger hindex (Nat.pos_of_ne_zero hglue)

/-- Units are taken off the upper end of the gap. -/
theorem takeHigh (h : Sound arena free blocks) (size : Nat) (hunits : size % 12 = 0)
    (hroom : size ≤ arena.allocator.highUnit - arena.allocator.lowUnit) :
    Sound { arena with allocator := { arena.allocator with
        highUnit := arena.allocator.highUnit - size } } free
      ((arena.allocator.highUnit - size, size) :: blocks) := by
  have hgap := h.gap_units
  have hhigh := h.high_le
  refine ⟨⟨h.lists.layout.ranges _ _ _ _ _ _, h.lists.chains, h.lists.classes, ?_, h.lists.start_pos⟩, ?_, ?_, ?_, h.start_le, h.fake, h.text_lt,
    h.pad⟩
  · refine h.lists.tiles.congr fun x => ?_
    have hcut := covers_cut arena.allocator.lowUnit
      (arena.allocator.highUnit - size - arena.allocator.lowUnit) size x
    rw [show arena.allocator.highUnit - size - arena.allocator.lowUnit + size
        = arena.allocator.highUnit - arena.allocator.lowUnit by omega,
      show arena.allocator.lowUnit + (arena.allocator.highUnit - size - arena.allocator.lowUnit)
        = arena.allocator.highUnit - size by have hle := h.low_le; omega] at hcut
    rw [covers_append, covers_append, gap, gap, covers_cons, covers_cons, covers_cons]
    rw [covers_cons, covers_cons, covers_cons, covers_nil] at hcut
    dsimp only
    omega
  · show arena.allocator.lowUnit ≤ arena.allocator.highUnit - size
    have hle := h.low_le
    omega
  · show (arena.allocator.highUnit - size - arena.allocator.lowUnit) % 12 = 0
    omega
  · show arena.allocator.highUnit - size ≤ arenaEnd arena
    omega

/-- Units are taken off the lower end of the gap. -/
theorem takeLow (h : Sound arena free blocks) (size : Nat) (hunits : size % 12 = 0)
    (hroom : arena.allocator.lowUnit + size ≤ arena.allocator.highUnit) :
    Sound { arena with allocator := { arena.allocator with
        lowUnit := arena.allocator.lowUnit + size } } free
      ((arena.allocator.lowUnit, size) :: blocks) := by
  have hgap := h.gap_units
  refine ⟨⟨h.lists.layout.ranges _ _ _ _ _ _, h.lists.chains, h.lists.classes, ?_, h.lists.start_pos⟩, hroom, ?_, h.high_le, h.start_le, h.fake,
    h.text_lt, h.pad⟩
  · refine h.lists.tiles.congr fun x => ?_
    have hcut := covers_cut arena.allocator.lowUnit size
      (arena.allocator.highUnit - (arena.allocator.lowUnit + size)) x
    rw [show size + (arena.allocator.highUnit - (arena.allocator.lowUnit + size))
        = arena.allocator.highUnit - arena.allocator.lowUnit by omega] at hcut
    rw [covers_append, covers_append, gap, gap, covers_cons, covers_cons, covers_cons]
    rw [covers_cons, covers_cons, covers_cons, covers_nil] at hcut
    dsimp only
    omega
  · show (arena.allocator.highUnit - (arena.allocator.lowUnit + size)) % 12 = 0
    omega

theorem allocateContext (h : Sound arena free blocks) (hunstamped : Unstamped arena blocks) :
    Allocates Ppmd.allocateContext 0 blocks arena := by
  have hask : asks pure arena = .ok (arena.allocator, arena) := rfl
  have hindex : 0 < nIndexes := by decide
  have hle := h.low_le
  have hgap := h.gap_units
  have hstart := h.lists.start_pos
  unfold Allocates
  rw [Ppmd.allocateContext, step_ok hask]
  by_cases hempty : arena.allocator.highUnit = arena.allocator.lowUnit
  · rw [if_neg (not_not_intro hempty)]
    have hhead : arena.allocator.freeList.head?
        = some (arena.allocator.freeListPosition + 4 * 0) := by
      rw [h.lists.layout.heads]
      rfl
    rw [hhead, lift_ok (orFormatError_some _ _), look_bind (h.lists.next_head hindex)]
    by_cases hlist : listOf free 0 = []
    · rw [if_neg (not_not_intro ((h.head_eq_zero_iff hindex).mpr hlist))]
      exact h.allocateUnitsRare hunstamped hindex
    · rw [if_pos (mt (h.head_eq_zero_iff hindex).mp hlist)]
      exact h.allocates_removeNode hindex hlist
  · rw [if_pos hempty, lift_ok (sub_of_le (by show 12 ≤ _; omega) _), update_bind]
    have hblock := h.takeHigh 12 (by decide) (by omega)
    have hpos := (hblock.lists.tiles.block_bounds (List.mem_append_right _
      (List.mem_cons_of_mem _ List.mem_cons_self)) (show 0 < 12 by decide)).1
    refine ⟨_, free, _, rfl, ⟨rfl, rfl, rfl, Nat.le_refl _, fun _ _ _ _ => rfl, fun _ _ => rfl⟩,
      Or.inr ⟨?_, hblock⟩⟩
    have hpos' : arena.allocator.unitsStart ≤ arena.allocator.highUnit - 12 := hpos
    show arena.allocator.highUnit - 12 ≠ 0
    omega

/-- The addresses behind the arena are addresses. -/
def Roomy (arena : Arena) : Prop := arenaEnd arena + 1536 < 2 ^ 32

theorem allocateUnits {units : Nat} (h : Sound arena free blocks) (hroomy : Roomy arena)
    (hunstamped : Unstamped arena blocks) (hpos : 0 < units) (hunits : units ≤ 128) :
    Allocates (Ppmd.allocateUnits units) (classOf (units - 1)) blocks arena := by
  have hask : asks pure arena = .ok (arena.allocator, arena) := rfl
  have hindex := classOf_lt (units - 1) (by omega)
  have hle := classUnits_le _ hindex
  have hlow := h.low_le
  have hhigh := h.high_le
  have hstart := h.lists.start_pos
  unfold Roomy at hroomy
  unfold Allocates
  rw [Ppmd.allocateUnits, if_neg (not_not_intro ⟨hpos, hunits⟩), lift_ok (sub_of_le hpos _),
    asks_bind (h.lists.layout.unitIndex_eq (by omega)), asks_bind (h.lists.layout.head_eq hindex _),
    look_bind (h.lists.next_head hindex)]
  generalize classOf (units - 1) = index at hindex hle ⊢
  by_cases hlist : listOf free index = []
  · rw [if_neg (not_not_intro ((h.head_eq_zero_iff hindex).mpr hlist)), step_ok hask,
      asks_bind (h.lists.layout.unitsAt_eq hindex), lift_ok (bytesForUnits_eq (by omega)),
      lift_ok (add_of_lt (by omega) _)]
    by_cases hfits : arena.allocator.lowUnit + 12 * classUnits index ≤ arena.allocator.highUnit
    · rw [if_pos hfits, update_bind]
      have hblock := h.takeLow (12 * classUnits index) (by omega) hfits
      have hclass := classUnits_pos index hindex
      have hfirst := (hblock.lists.tiles.block_bounds (List.mem_append_right _
        (List.mem_cons_of_mem _ List.mem_cons_self)) (show 0 < 12 * classUnits index by omega)).1
      have hfirst' : arena.allocator.unitsStart ≤ arena.allocator.lowUnit := hfirst
      exact ⟨_, free, _, rfl, ⟨rfl, rfl, rfl, Nat.le_refl _, fun _ _ _ _ => rfl, fun _ _ => rfl⟩,
        Or.inr ⟨by omega, hblock⟩⟩
    · rw [if_neg hfits, lift_ok (sub_of_le (by omega) _)]
      exact h.allocateUnitsRare hunstamped hindex
  · rw [if_pos (mt (h.head_eq_zero_iff hindex).mp hlist)]
    exact h.allocates_removeNode hindex hlist

/-! ### Moving a block -/

/-- The memory of the blocks and below the units may change. -/
theorem write (h : Sound arena free blocks) {bytes : Bytes}
    (hlength : bytes.length = arena.heap.bytes.length)
    (hsame : ∀ x, arena.allocator.unitsStart ≤ x → (∀ block ∈ blocks, ¬ In block x) →
      get bytes x = get arena.heap.bytes x) :
    Sound { arena with heap := ⟨bytes⟩ } free blocks := by
  have hend := h.lists.layout.arenaEnd_lt
  have hstart := h.start_le
  have hout : ∀ x, arenaEnd arena ≤ x → get bytes x = get arena.heap.bytes x := fun x hx =>
    hsame x (by omega) fun block hblock hin => by
      have hbounds := (h.bounds hblock hin).2
      omega
  refine ⟨h.lists.memory hlength (fun block hblock x hx => hsame x ?_ fun other hother hin => ?_)
    fun x hx _ => hout x (by omega), h.low_le, h.gap_units, h.high_le, h.start_le, h.fake, h.text_lt,
    (hout _ (Nat.le_refl _)).trans h.pad⟩
  · exact (h.lists.tiles.bounds (List.mem_append_left _ (List.mem_map_of_mem hblock)) hx).1
  · obtain ⟨left, right, hsplit⟩ := List.append_of_mem (List.mem_cons_of_mem (gap arena) hother)
    have htiles := h.lists.tiles
    rw [hsplit] at htiles
    exact (htiles.perm ((List.Perm.append_left _ List.perm_middle).trans List.perm_middle)).apart
      (List.mem_append_left _ (List.mem_map_of_mem hblock)) hin hx

/-- A block of memory is in the heap. -/
theorem fits (h : Sound arena free blocks) {block : Nat × Nat} (hblock : block ∈ blocks)
    (hpos : 0 < block.2) :
    arena.allocator.unitsStart ≤ block.1 ∧ block.1 + block.2 ≤ arenaEnd arena ∧
      block.1 + block.2 ≤ arena.heap.bytes.length := by
  have hbounds := h.lists.tiles.block_bounds
    (List.mem_append_right _ (List.mem_cons_of_mem _ hblock)) hpos
  have hend := h.lists.layout.arenaEnd_lt
  have htemp := h.lists.layout.temporary
  have hlen := h.lists.layout.length
  exact ⟨hbounds.1, hbounds.2, by omega⟩

/-- The first bytes of one block are copied to another one. -/
theorem copy {new old size oldSize newSize : Nat}
    (h : Sound arena free ((new, newSize) :: (old, oldSize) :: blocks)) (hpos : 0 < size)
    (hold : size ≤ oldSize) (hnew : size ≤ newSize) :
    ∃ heap, Heap.copy new old size arena.heap = .ok ((), heap) ∧
      Sound { arena with heap } free ((new, newSize) :: (old, oldSize) :: blocks) ∧
      Leaves blocks arena { arena with heap } ∧
      ∀ i < size, get heap.bytes (new + i) = get arena.heap.bytes (old + i) := by
  obtain ⟨hnewStart, hnewEnd, hnewFits⟩ := h.fits List.mem_cons_self (show 0 < newSize by omega)
  obtain ⟨holdStart, holdEnd, holdFits⟩ :=
    h.fits (List.mem_cons_of_mem _ List.mem_cons_self) (show 0 < oldSize by omega)
  dsimp only at hnewStart hnewEnd hnewFits holdStart holdEnd holdFits
  have hget := @Heap.get_copyWithin arena.heap.bytes old size new (by omega) (by omega)
  have hlength := @Heap.length_copyWithin arena.heap.bytes old size new (by omega) (by omega)
  have hfar : ∀ x, ¬ In (new, newSize) x →
      get (Heap.copyWithin arena.heap.bytes old size new) x = get arena.heap.bytes x := by
    intro x hx
    rw [hget, if_neg]
    exact fun hin => hx ⟨hin.1, by dsimp only; omega⟩
  refine ⟨⟨Heap.copyWithin arena.heap.bytes old size new⟩,
    Heap.copy_eq (by omega) (by omega) h.lists.layout.length_lt,
    h.write hlength fun x _ hnot => hfar x (hnot _ List.mem_cons_self),
    ⟨rfl, rfl, hlength, Nat.le_refl _, fun block hblock x hx => hfar x ?_, fun x hx => hfar x ?_⟩,
    fun i hi => ?_⟩
  · exact h.apart (List.mem_cons_of_mem _ hblock) hx
  · have hx' : x < arena.allocator.unitsStart := hx
    exact fun hin => by
      have hge : new ≤ x := hin.1
      omega
  · rw [hget, if_pos ⟨by omega, by omega⟩, Nat.add_sub_cancel_left]

/-- What was in a block is in the block that was made of it. -/
def Moved (old new size : Nat) (arena arena' : Arena) : Prop :=
  ∀ i < size, get arena'.heap.bytes (new + i) = get arena.heap.bytes (old + i)

/-- A block moves into another one, and what it was in is free. -/
theorem move {new old size newSize oldIndex : Nat}
    (h : Sound arena free ((new, newSize) :: (old, 12 * classUnits oldIndex) :: blocks))
    (hindex : oldIndex < nIndexes) (hpos : 0 < size) (hold : size ≤ 12 * classUnits oldIndex)
    (hnew : size ≤ newSize) :
    ∃ free' arena', (onHeap (Heap.copy new old size) >>= fun _ =>
        Ppmd.insertNode old oldIndex >>= fun _ => pure new) arena = .ok (new, arena') ∧
      Sound arena' free' ((new, newSize) :: blocks) ∧ Leaves blocks arena arena' ∧
      Moved old new size arena arena' := by
  obtain ⟨heap, hcopy, hsound, hleaves, hmoved⟩ := h.copy hpos hold hnew
  obtain ⟨arena', hrun, hsound', hleaves'⟩ :=
    (hsound.perm (List.Perm.swap _ _ _)).insertNode hindex
  refine ⟨_, arena', ?_, hsound', hleaves.trans hleaves'.of_cons, fun i hi => ?_⟩
  · rw [onHeap_bind hcopy, step_ok hrun]
    rfl
  · rw [hleaves'.blocks _ List.mem_cons_self (new + i) ⟨Nat.le_add_right _ _, by dsimp only; omega⟩]
    exact hmoved i hi

/-- A block has room for one unit more, or is moved to a larger one, or stays. -/
theorem expandUnits {old units : Nat}
    (h : Sound arena free ((old, 12 * classUnits (classOf (units - 1))) :: blocks))
    (hroomy : Roomy arena)
    (hunstamped : Unstamped arena ((old, 12 * classUnits (classOf (units - 1))) :: blocks))
    (hpos : 0 < units) (hunits : units < 128) :
    ∃ a free' arena', Ppmd.expandUnits old units arena = .ok (a, arena') ∧
      ((a = 0 ∧ Sound arena' free' ((old, 12 * classUnits (classOf (units - 1))) :: blocks) ∧
          Leaves ((old, 12 * classUnits (classOf (units - 1))) :: blocks) arena arena') ∨
        (a ≠ 0 ∧ Sound arena' free' ((a, 12 * classUnits (classOf units)) :: blocks) ∧
          Leaves blocks arena arena' ∧ Moved old a (12 * units) arena arena')) := by
  have hindex := classOf_lt (units - 1) (by omega)
  have hle := classUnits_le _ hindex
  have hroom := classOf_units (units - 1) (by omega)
  have hroom' := classOf_units units hunits
  obtain ⟨hstart, -, -⟩ := h.fits List.mem_cons_self (show 0 < 12 * classUnits (classOf (units - 1)) by omega)
  have hlo := h.lists.start_pos
  dsimp only at hstart
  rw [Ppmd.expandUnits, lift_ok (sub_of_le hpos _), asks_bind (h.lists.layout.unitIndex_eq (by omega)),
    asks_bind (h.lists.layout.unitIndex_eq hunits)]
  by_cases hsame : classOf (units - 1) = classOf units
  · rw [if_pos hsame]
    rw [hsame] at h
    exact ⟨old, free, arena, rfl, Or.inr ⟨by omega, h, Leaves.refl arena, fun _ _ => rfl⟩⟩
  · rw [if_neg hsame, lift_ok (add_of_lt (by omega) _)]
    obtain ⟨a, free₁, arena₁, hrun, hleaves₁, hresult⟩ :=
      h.allocateUnits hroomy hunstamped (show 0 < units + 1 by omega) (by omega)
    rw [Nat.add_sub_cancel] at hresult
    rw [step_ok hrun]
    rcases hresult with ⟨hzero, hsound₁⟩ | ⟨hne, hsound₁⟩
    · rw [if_neg (not_not_intro hzero)]
      exact ⟨a, free₁, arena₁, rfl, Or.inl ⟨hzero, hsound₁, hleaves₁⟩⟩
    · rw [if_pos hne, lift_ok (bytesForUnits_eq (by omega))]
      obtain ⟨free₂, arena₂, hmove, hsound₂, hleaves₂, hmoved⟩ :=
        @move arena₁ free₁ blocks a old (12 * units) _ _ hsound₁ hindex (by omega) (by omega) (by omega)
      refine ⟨a, free₂, arena₂, hmove, Or.inr ⟨hne, hsound₂, hleaves₁.of_cons.trans hleaves₂,
        fun i hi => (hmoved i hi).trans ?_⟩⟩
      exact hleaves₁.blocks _ List.mem_cons_self _ ⟨Nat.le_add_right _ _, by dsimp only; omega⟩

theorem classOf_le_succ : ∀ last < 127, classOf last ≤ classOf (last + 1) := by decide +kernel

theorem classOf_mono {last other : Nat} (hle : other ≤ last) (hlast : last < 128) :
    classOf other ≤ classOf last := by
  induction hle with
  | refl => exact Nat.le_refl _
  | step _ ih => exact Nat.le_trans (ih (by omega)) (classOf_le_succ _ (by omega))

/-- A block is cut, or moved to a smaller one. -/
theorem shrinkUnits {old oldUnits newUnits : Nat}
    (h : Sound arena free ((old, 12 * classUnits (classOf (oldUnits - 1))) :: blocks))
    (hpos : 0 < newUnits) (hle : newUnits ≤ oldUnits) (hunits : oldUnits ≤ 128) :
    ∃ a free' arena', Ppmd.shrinkUnits old oldUnits newUnits arena = .ok (a, arena') ∧ a ≠ 0 ∧
      Sound arena' free' ((a, 12 * classUnits (classOf (newUnits - 1))) :: blocks) ∧
      Leaves blocks arena arena' ∧ Moved old a (12 * newUnits) arena arena' := by
  have hindex := classOf_lt (oldUnits - 1) (by omega)
  have hindex' := classOf_lt (newUnits - 1) (by omega)
  have hroom := classOf_units (oldUnits - 1) (by omega)
  have hroom' := classOf_units (newUnits - 1) (by omega)
  obtain ⟨hstart, -, -⟩ :=
    h.fits List.mem_cons_self (show 0 < 12 * classUnits (classOf (oldUnits - 1)) by omega)
  have hlo := h.lists.start_pos
  dsimp only at hstart
  rw [Ppmd.shrinkUnits, lift_ok (sub_of_le (by omega) _),
    asks_bind (h.lists.layout.unitIndex_eq (by omega)), lift_ok (sub_of_le hpos _),
    asks_bind (h.lists.layout.unitIndex_eq (by omega))]
  by_cases hsame : classOf (oldUnits - 1) = classOf (newUnits - 1)
  · rw [if_pos hsame]
    rw [hsame] at h
    exact ⟨old, free, arena, rfl, by omega, h, Leaves.refl arena, fun _ _ => rfl⟩
  · rw [if_neg hsame, asks_bind (h.lists.layout.head_eq hindex' _), look_bind (h.lists.next_head hindex')]
    by_cases hlist : listOf free (classOf (newUnits - 1)) = []
    · have hless : classOf (newUnits - 1) < classOf (oldUnits - 1) := by
        have hmono := @classOf_mono (oldUnits - 1) (newUnits - 1) (by omega) (by omega)
        omega
      obtain ⟨free', arena', hrun, hsound, hleaves⟩ := h.splitBlock hindex hless
      rw [if_neg (not_not_intro ((h.head_eq_zero_iff hindex').mpr hlist)), step_ok hrun]
      refine ⟨old, free', arena', rfl, by omega, hsound, hleaves.of_cons, fun i hi => ?_⟩
      exact hleaves.blocks _ List.mem_cons_self _ ⟨Nat.le_add_right _ _, by dsimp only; omega⟩
    · obtain ⟨a, more, hcons⟩ := List.exists_cons_of_ne_nil hlist
      obtain ⟨free₁, arena₁, hrun, hne, hsound₁, hleaves₁⟩ := h.removeNode hindex' hcons
      rw [if_pos (mt (h.head_eq_zero_iff hindex').mp hlist), step_ok hrun,
        lift_ok (bytesForUnits_eq (by omega))]
      obtain ⟨free₂, arena₂, hmove, hsound₂, hleaves₂, hmoved⟩ :=
        @move arena₁ free₁ blocks a old (12 * newUnits) _ _ hsound₁ hindex (by omega) (by omega) (by omega)
      refine ⟨a, free₂, arena₂, hmove, hne, hsound₂, hleaves₁.of_cons.trans hleaves₂,
        fun i hi => (hmoved i hi).trans ?_⟩
      exact hleaves₁.blocks _ List.mem_cons_self _ ⟨Nat.le_add_right _ _, by dsimp only; omega⟩

theorem freeUnits {units : Nat}
    (h : Sound arena free ((a, 12 * classUnits (classOf (units - 1))) :: blocks))
    (hpos : 0 < units) (hunits : units ≤ 128) :
    ∃ free' arena', Ppmd.freeUnits a units arena = .ok ((), arena') ∧ Sound arena' free' blocks ∧
      Leaves blocks arena arena' := by
  obtain ⟨arena', hrun, hsound, hleaves⟩ := h.insertNode (classOf_lt (units - 1) (by omega))
  refine ⟨_, arena', ?_, hsound, hleaves⟩
  rw [Ppmd.freeUnits, lift_ok (sub_of_le hpos _), asks_bind (h.lists.layout.unitIndex_eq (by omega))]
  exact hrun

end Sound

end Ppmd

end Un7z
