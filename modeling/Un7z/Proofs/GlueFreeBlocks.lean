/-
The three rounds of `glue_free_blocks`.

First every list is emptied onto the ring, then every block of the ring takes up the free
blocks that follow it, and last the blocks go back to the lists, cut to the classes.  In each
round a block is taken from the one and put on the other, so `Gluing` holds throughout; that
the rounds end at all is what the steps of the source are counted for.
-/
import Un7z.Proofs.GluedBlocks

namespace Un7z

namespace Ppmd

open ByteMemory LinkedBlocks Cover SubAllocator

namespace Gluing

variable {arena : Arena} {free held rest : List (Nat × Nat)} {block : Nat × Nat} {a index : Nat}

/-! ### Collecting -/

/-- A round of `collectList`. -/
theorem collectList_step {more : List Nat} (fuel : Nat) (h : Gluing arena free held rest)
    (hindex : index < nIndexes) (hlist : listOf free index = a :: more) :
    ∃ free' arena', collectList arena.allocator.temporaryBlockPosition index (fuel + 1) arena
        = collectList arena'.allocator.temporaryBlockPosition index fuel arena' ∧
      Gluing arena' free' ((a, classUnits index) :: held) rest ∧ Keeps rest arena arena' ∧
      listOf free' index = more ∧ ∀ other, other ≠ index → listOf free' other = listOf free other := by
  obtain ⟨free', arena', hrun, hgluing, hkeeps, hmore, hothers⟩ := h.removeNode hindex hlist
  have hunits := classUnits_pos index hindex
  have hle := classUnits_le index hindex
  have hnext : word 4 arena.heap.bytes (arena.allocator.freeListPosition + 4 * index) ≠ 0 := by
    rw [Ne, (h.lists.chains index hindex).eq_nil_iff, hlist]
    exact List.cons_ne_nil a more
  have hinsert := hgluing.insertAt_eq hunits
  obtain ⟨hcollected, hkeeps'⟩ := hgluing.collect hunits (show classUnits index < 0x10000 by omega)
  have hfits := (hgluing.laid_hand hunits).fits a (List.mem_cons_of_mem _ List.mem_cons_self)
  have hheap := hgluing.sentinel.2.2
  refine ⟨free', _, ?_, hcollected, hkeeps.trans hkeeps', hmore, hothers⟩
  have hat : ∀ heap, unitsAt index (Arena.mk arena'.allocator heap).allocator
      = .ok (classUnits index) := fun _ => hgluing.lists.layout.unitsAt_eq hindex
  rw [collectList, asks_bind (h.lists.layout.head_eq hindex _), look_bind (h.lists.next_head hindex),
    if_neg hnext, step_ok hrun, ← hkeeps.allocator, onHeap_bind hinsert,
    onHeap_bind (MemBlock.setStamp_eq (by rw [length_link]; exact hfits)
      (by rw [length_link]; exact hheap) (by decide)),
    asks_bind (hat _), onHeap_bind (MemBlock.setUnits_eq (by rw [length_putWord, length_link]; exact hfits)
      (by rw [length_putWord, length_link]; exact hheap) (by omega))]
  rfl

/-- The blocks of a list go on the ring. -/
theorem collectList {fuel : Nat} (h : Gluing arena free held rest) (hindex : index < nIndexes)
    (hfuel : (listOf free index).length < fuel) :
    ∃ free' held' arena', Ppmd.collectList arena.allocator.temporaryBlockPosition index fuel arena
        = .ok ((), arena') ∧ Gluing arena' free' held' rest ∧ Keeps rest arena arena' ∧
      listOf free' index = [] ∧ ∀ other, other ≠ index → listOf free' other = listOf free other := by
  induction fuel generalizing arena free held with
  | zero => exact absurd hfuel (Nat.not_lt_zero _)
  | succ fuel ih =>
      cases hlist : listOf free index with
      | nil =>
          have hnext := ((h.lists.chains index hindex).eq_nil_iff).mpr hlist
          refine ⟨free, held, arena, ?_, h, Keeps.refl arena, hlist, fun other _ => rfl⟩
          rw [Ppmd.collectList, asks_bind (h.lists.layout.head_eq hindex _),
            look_bind (h.lists.next_head hindex), if_pos hnext]
          rfl
      | cons a more =>
          obtain ⟨free', arena', hrun, hgluing, hkeeps, hmore, hothers⟩ :=
            h.collectList_step fuel hindex hlist
          rw [hlist, List.length_cons] at hfuel
          obtain ⟨free'', held'', arena'', hrun', hgluing', hkeeps', hnil, hothers'⟩ :=
            ih hgluing (by rw [hmore]; omega)
          exact ⟨free'', held'', arena'', hrun.trans hrun', hgluing', hkeeps.trans hkeeps', hnil,
            fun other hne => (hothers' other hne).trans (hothers other hne)⟩

/-- There are no more free blocks than bytes. -/
theorem length_free_le (h : Gluing arena free held rest) :
    free.length ≤ arena.heap.bytes.length := by
  have hcover : ∀ x, covers (free.map freeBlock) x ≤ 1 := by
    intro x
    have hone := h.lists.tiles.covers_le x
    rw [covers_append] at hone
    omega
  have hsentinel := h.sentinel
  have hcount := @length_mul_le (free.map freeBlock) (arenaEnd arena) 12 hcover
    (fun block hblock => by
      obtain ⟨block', hblock', rfl⟩ := List.mem_map.mp hblock
      have hpos := classUnits_pos block'.1 (h.lists.classes block' hblock')
      show 12 ≤ 12 * classUnits block'.1
      omega)
    fun block hblock => by
      obtain ⟨block', hblock', rfl⟩ := List.mem_map.mp hblock
      exact (h.lists.block_bounds hblock').2.2
  rw [List.length_map] at hcount
  omega

theorem length_listOf_le (free : List (Nat × Nat)) (index : Nat) :
    (listOf free index).length ≤ free.length := by
  rw [listOf, List.length_map]
  exact List.length_filter_le _ _

/-- The lists that are named are emptied, and the others stay as they are. -/
theorem collectLists {indexes : List Nat} (h : Gluing arena free held rest)
    (hindexes : ∀ index ∈ indexes, index < nIndexes) :
    ∃ free' held' arena', Ppmd.collectLists arena.allocator.temporaryBlockPosition
        (arena.heap.bytes.length + 1) indexes arena = .ok ((), arena') ∧
      Gluing arena' free' held' rest ∧ Keeps rest arena arena' ∧
      ∀ index, listOf free' index = if index ∈ indexes then [] else listOf free index := by
  induction indexes generalizing arena free held with
  | nil => exact ⟨free, held, arena, rfl, h, Keeps.refl arena, fun _ => rfl⟩
  | cons index indexes ih =>
      obtain ⟨free', held', arena', hrun, hgluing, hkeeps, hnil, hothers⟩ :=
        h.collectList (hindexes index List.mem_cons_self)
          (Nat.lt_succ_of_le (Nat.le_trans (length_listOf_le free index) h.length_free_le))
      obtain ⟨free'', held'', arena'', hrun', hgluing', hkeeps', hlists⟩ :=
        ih hgluing fun other hother => hindexes other (List.mem_cons_of_mem _ hother)
      refine ⟨free'', held'', arena'', ?_, hgluing', hkeeps.trans hkeeps', fun other => ?_⟩
      · rw [Ppmd.collectLists, step_ok hrun, ← hrun', hkeeps.allocator, hkeeps.length]
      · rw [hlists other]
        by_cases hmem : other ∈ indexes
        · rw [if_pos hmem, if_pos (List.mem_cons_of_mem _ hmem)]
        · rw [if_neg hmem]
          by_cases hsame : other = index
          · rw [hsame, hnil, if_pos List.mem_cons_self]
          · rw [hothers other hsame,
              if_neg fun hcons => hmem ((List.mem_cons.mp hcons).resolve_left hsame)]

/-- When all lists are emptied no block is free. -/
theorem collect_all (h : Gluing arena free held rest) :
    ∃ held' arena', Ppmd.collectLists arena.allocator.temporaryBlockPosition
        (arena.heap.bytes.length + 1) (List.range nIndexes) arena = .ok ((), arena') ∧
      Gluing arena' [] held' rest ∧ Keeps rest arena arena' := by
  obtain ⟨free', held', arena', hrun, hgluing, hkeeps, hlists⟩ :=
    @collectLists _ _ _ _ (List.range nIndexes) h fun index => List.mem_range.mp
  have hnil : free' = [] := by
    refine List.eq_nil_iff_forall_not_mem.mpr fun block hblock => ?_
    have hlist := hlists block.1
    rw [if_pos (List.mem_range.mpr (hgluing.lists.classes block hblock))] at hlist
    have hmem : block.2 ∈ listOf free' block.1 := mem_listOf.mpr hblock
    rw [hlist] at hmem
    cases hmem
  rw [hnil] at hgluing
  exact ⟨held', arena', hrun, hgluing, hkeeps⟩

end Gluing

/-! ### Merging -/

/-- No block of the rest begins with the stamp of a free block, and the byte behind the arena
is not one of it either. -/
structure Unstamped (arena : Arena) (rest : List (Nat × Nat)) : Prop where
  blocks : ∀ block ∈ rest, 0 < block.2 → 12 ≤ block.2 ∧ word 2 arena.heap.bytes block.1 ≠ 0xffff
  pad : get arena.heap.bytes (arenaEnd arena) = 0

/-- What keeps the rest does not stamp it. -/
theorem Unstamped.keeps {arena arena' : Arena} {free blocks rest : List (Nat × Nat)}
    (h : Unstamped arena rest) (hlists : Lists arena free (blocks ++ rest))
    (hkeeps : Keeps rest arena arena') : Unstamped arena' rest := by
  have hend := hlists.layout.arenaEnd_lt
  refine ⟨fun block hblock hpos => ⟨(h.blocks block hblock hpos).1, ?_⟩, ?_⟩
  · obtain ⟨hsize, hstamp⟩ := h.blocks block hblock hpos
    have hbounds := hlists.tiles.block_bounds
      (List.mem_append_right _ (List.mem_append_right _ hblock)) hpos
    have hsame : word 2 arena'.heap.bytes block.1 = word 2 arena.heap.bytes block.1 := by
      refine word_congr fun x hle hlt => hkeeps.get x (by omega) fun hspare => ?_
      have hcovers := covers_pos hblock (show In block x from ⟨hle, by omega⟩)
      have hzero := hspare.2.2
      omega
    rw [hsame]
    exact hstamp
  · have hsame : arenaEnd arena' = arenaEnd arena := by
      rw [arenaEnd, arenaEnd, hkeeps.allocator]
    rw [hsame, hkeeps.get _ hend fun hspare => Nat.lt_irrefl _ hspare.2.1]
    exact h.pad

namespace Gluing

variable {arena : Arena} {free held rest before after : List (Nat × Nat)} {b units more : Nat}

/-- What follows a block of the ring is another one, or not stamped. -/
theorem next_stamp (h : Gluing arena [] (before ++ (b, units) :: after) rest)
    (hunstamped : Unstamped arena rest) :
    word 2 arena.heap.bytes (b + 12 * units) ≠ 0xffff ∨
      ∃ more, (b + 12 * units, more) ∈ before ++ after := by
  have hpos := (h.units (b, units) (mem_middle.mpr (Or.inl rfl))).1
  have hbounds := (h.block_bounds (mem_middle.mpr (Or.inl rfl))).2.2
  have htiles : Tiles arena.allocator.unitsStart (arenaEnd arena)
      ((b, 12 * units) :: ((before ++ after).map heldBlock ++ rest)) := by
    have hperm : ((before ++ (b, units) :: after).map heldBlock).Perm
        (heldBlock (b, units) :: (before ++ after).map heldBlock) := List.perm_middle.map heldBlock
    exact h.lists.tiles.perm (hperm.append_right rest)
  dsimp only at hpos hbounds
  rcases Nat.lt_or_eq_of_le hbounds with hlt | heq
  · obtain ⟨other, hother, hstart, hlen⟩ := htiles.next (show 0 < 12 * units by omega) hlt
    rcases List.mem_append.mp hother with hother | hother
    · obtain ⟨block, hblock, rfl⟩ := List.mem_map.mp hother
      exact Or.inr ⟨block.2, by rw [← hstart]; exact hblock⟩
    · left
      rw [← hstart]
      exact (hunstamped.blocks other hother hlen).2
  · left
    rw [heq, word, hunstamped.pad]
    have hnext := word_lt 1 arena.heap.bytes (arenaEnd arena + 1)
    rw [UInt8.toNat_zero]
    omega

/-- A block of the ring other than a named one is taken out. -/
theorem remove_other {c : Nat} (h : Gluing arena free (before ++ (b, units) :: after) rest)
    (hblock : (c, more) ∈ before ++ after) :
    ∃ before' after', after'.length ≤ after.length ∧
      MemBlock.remove c arena.heap = .ok ((), ⟨unlink arena.heap.bytes c⟩) ∧
      word 2 (unlink arena.heap.bytes c) (c + 2) = more ∧
      Gluing { arena with heap := ⟨unlink arena.heap.bytes c⟩ } free
        (before' ++ (b, units) :: after') ((c, 12 * more) :: rest) ∧
      Keeps rest arena { arena with heap := ⟨unlink arena.heap.bytes c⟩ } := by
  have hmem : (c, more) ∈ before ++ (b, units) :: after := mem_middle.mpr (Or.inr hblock)
  have hunits := (h.stamps _ hmem).2
  have hfst : c ∈ (before ++ (b, units) :: after).map Prod.fst := List.mem_map.mpr ⟨_, hmem, rfl⟩
  rcases List.mem_append.mp hblock with hblock | hblock
  · obtain ⟨left, right, rfl⟩ := List.append_of_mem hblock
    have h' := h
    rw [List.append_assoc, List.cons_append] at h'
    obtain ⟨hgluing, hkeeps⟩ := h'.remove
    rw [← List.append_assoc] at hgluing
    rw [List.append_assoc, List.cons_append] at hfst
    exact ⟨left ++ right, after, Nat.le_refl _, h'.remove_eq,
      (h'.head_unlink hfst).2.trans hunits, hgluing, hkeeps⟩
  · obtain ⟨left, right, rfl⟩ := List.append_of_mem hblock
    have h' := h
    rw [← List.cons_append, ← List.append_assoc] at h'
    obtain ⟨hgluing, hkeeps⟩ := h'.remove
    rw [List.append_assoc, List.cons_append] at hgluing
    rw [← List.cons_append, ← List.append_assoc] at hfst
    refine ⟨before, left ++ right, ?_, h'.remove_eq, (h'.head_unlink hfst).2.trans hunits, hgluing,
      hkeeps⟩
    rw [List.length_append, List.length_append, List.length_cons]
    omega

/-- Where a block of the ring ends. -/
theorem blockEnd_eq (h : Gluing arena free held rest) {block : Nat × Nat} (hblock : block ∈ held) :
    blockEnd block.1 arena.heap = .ok (block.1 + 12 * block.2) := by
  obtain ⟨-, hfits, hend⟩ := h.block_bounds hblock
  obtain ⟨hbehind, hlen, hheap⟩ := h.sentinel
  have hunits := (h.units block hblock).2
  rw [blockEnd, MemBlock.units_eq (by omega) hheap, except_ok_bind, (h.stamps block hblock).2,
    bytesForUnits_eq (by omega), except_ok_bind, add_of_lt (by omega)]

/-- A round of `mergeNext` in which the block grows. -/
theorem mergeNext_step (fuel : Nat) (h : Gluing arena free (before ++ (b, units) :: after) rest)
    (hblock : (b + 12 * units, more) ∈ before ++ after) (hlt : units + more < 0x10000) :
    ∃ before' after' heap', after'.length ≤ after.length ∧
      mergeNext b (fuel + 1) (b + 12 * units) arena.heap
        = mergeNext b fuel (b + 12 * (units + more)) heap' ∧
      Gluing { arena with heap := heap' } free (before' ++ (b, units + more) :: after') rest ∧
      Keeps rest arena { arena with heap := heap' } := by
  have hbmem : (b, units) ∈ before ++ (b, units) :: after := mem_middle.mpr (Or.inl rfl)
  have hcmem : (b + 12 * units, more) ∈ before ++ (b, units) :: after :=
    mem_middle.mpr (Or.inr hblock)
  obtain ⟨hstamp, hmore⟩ := h.stamps _ hcmem
  obtain ⟨-, hunits⟩ := h.stamps _ hbmem
  obtain ⟨-, hbfits, hbend⟩ := h.block_bounds hbmem
  obtain ⟨-, hcfits, hcend⟩ := h.block_bounds hcmem
  obtain ⟨hend, hlen, hheap⟩ := h.sentinel
  dsimp only at hstamp hmore hunits hbfits hbend hcfits hcend
  obtain ⟨before', after', hle, hremove, hmore', hgluing, hkeeps⟩ := h.remove_other hblock
  obtain ⟨hset, hgluing', hkeeps'⟩ := hgluing.grow hlt
  have hmem' : (b, units) ∈ before' ++ (b, units) :: after' := mem_middle.mpr (Or.inl rfl)
  have hunits' := (hgluing.stamps _ hmem').2
  have hmem'' : (b, units + more) ∈ before' ++ (b, units + more) :: after' :=
    mem_middle.mpr (Or.inl rfl)
  have hunits'' := (hgluing'.stamps _ hmem'').2
  dsimp only at hset hunits' hunits''
  refine ⟨before', after', _, hle, ?_, hgluing', hkeeps.trans hkeeps'⟩
  have hroom : (checkedAdd 32 units more).any (· < 0x10000) = true := by
    rw [checkedAdd_of_lt (by omega), Option.any_some]
    exact decide_eq_true hlt
  have hlen' : (unlink arena.heap.bytes (b + 12 * units)).length = arena.heap.bytes.length :=
    length_unlink
  rw [mergeNext, Heap.read_bind (MemBlock.stamp_eq (by omega) hheap), if_pos hstamp,
    Heap.read_bind (MemBlock.units_eq (by omega) hheap), hunits,
    Heap.read_bind (MemBlock.units_eq (by omega) hheap), hmore, if_pos hroom, step_ok hremove,
    Heap.read_bind (MemBlock.units_eq (by rw [hlen']; omega) (by rw [hlen']; exact hheap)), hunits',
    Heap.read_bind (MemBlock.units_eq (by rw [hlen']; omega) (by rw [hlen']; exact hheap)), hmore',
    lift_ok (add_of_lt (by omega) _), step_ok hset, Heap.read_bind]
  refine hgluing'.blockEnd_eq hmem''

/-- The free blocks behind a block join it, and the ring behind it gets no longer. -/
theorem mergeNext {fuel : Nat} (h : Gluing arena [] (before ++ (b, units) :: after) rest)
    (hunstamped : Unstamped arena rest) (hfuel : 0x10000 ≤ units + fuel) :
    ∃ before' units' after' heap', after'.length ≤ after.length ∧
      Ppmd.mergeNext b fuel (b + 12 * units) arena.heap = .ok ((), heap') ∧
      Gluing { arena with heap := heap' } [] (before' ++ (b, units') :: after') rest ∧
      Keeps rest arena { arena with heap := heap' } := by
  induction fuel generalizing arena before units after with
  | zero =>
      have hlt := (h.units (b, units) (mem_middle.mpr (Or.inl rfl))).2
      dsimp only at hlt
      omega
  | succ fuel ih =>
      have hbmem : (b, units) ∈ before ++ (b, units) :: after := mem_middle.mpr (Or.inl rfl)
      obtain ⟨-, hbfits, hbend⟩ := h.block_bounds hbmem
      obtain ⟨hpos, hunits⟩ := h.units _ hbmem
      obtain ⟨hend, hlen, hheap⟩ := h.sentinel
      dsimp only at hbfits hbend hpos hunits
      rcases h.next_stamp hunstamped with hstamp | ⟨more, hmore⟩
      · refine ⟨before, units, after, arena.heap, Nat.le_refl _, ?_, h, Keeps.refl arena⟩
        rw [Ppmd.mergeNext, Heap.read_bind (MemBlock.stamp_eq (by omega) hheap), if_neg hstamp]
        rfl
      · by_cases hlt : units + more < 0x10000
        · have hmem := (h.units _ (mem_middle.mpr (Or.inr hmore))).1
          obtain ⟨before', after', heap', hle, hrun, hgluing, hkeeps⟩ := h.mergeNext_step fuel hmore hlt
          obtain ⟨before'', units'', after'', heap'', hle', hrun', hgluing', hkeeps'⟩ :=
            ih hgluing (hunstamped.keeps h.lists hkeeps) (by dsimp only at hmem; omega)
          exact ⟨before'', units'', after'', heap'', Nat.le_trans hle' hle, hrun.trans hrun', hgluing',
            hkeeps.trans hkeeps'⟩
        · -- The block would be too large.
          obtain ⟨hstamp, hunits'⟩ := h.stamps _ (mem_middle.mpr (Or.inr hmore))
          have hmoreLt := (h.units _ (mem_middle.mpr (Or.inr hmore))).2
          have hcend := (h.block_bounds (mem_middle.mpr (Or.inr hmore))).2.1
          have hbunits := (h.stamps _ hbmem).2
          dsimp only at hstamp hunits' hmoreLt hcend hbunits
          have hroom : ¬ ((checkedAdd 32 units more).any (· < 0x10000) = true) := by
            rw [checkedAdd_of_lt (by omega), Option.any_some, decide_eq_true_eq]
            exact hlt
          refine ⟨before, units, after, arena.heap, Nat.le_refl _, ?_, h, Keeps.refl arena⟩
          rw [Ppmd.mergeNext, Heap.read_bind (MemBlock.stamp_eq (by omega) hheap), if_pos hstamp,
            Heap.read_bind (MemBlock.units_eq (by omega) hheap), hbunits,
            Heap.read_bind (MemBlock.units_eq (by omega) hheap), hunits', if_neg hroom]
          rfl

/-- The first loop over the ring ends, and what it leaves is a ring of free blocks. -/
theorem mergeBlocks {maximumSteps fuel steps : Nat} (h : Gluing arena [] (before ++ after) rest)
    (hunstamped : Unstamped arena rest) (hfuel : after.length < fuel)
    (hsteps : steps + after.length ≤ maximumSteps) (hmaximum : maximumSteps < 2 ^ 32) :
    ∃ held' heap', Ppmd.mergeBlocks arena.allocator.temporaryBlockPosition maximumSteps fuel
        ((after.map Prod.fst).headD arena.allocator.temporaryBlockPosition) steps arena.heap
        = .ok ((), heap') ∧
      Gluing { arena with heap := heap' } [] held' rest ∧
      Keeps rest arena { arena with heap := heap' } := by
  induction fuel generalizing arena before after steps with
  | zero => exact absurd hfuel (Nat.not_lt_zero _)
  | succ fuel ih =>
      cases after with
      | nil =>
          refine ⟨before ++ [], arena.heap, ?_, h, Keeps.refl arena⟩
          rw [List.map_nil, List.headD_nil, Ppmd.mergeBlocks, if_pos rfl]
          rfl
      | cons block after =>
          obtain ⟨b, units⟩ := block
          have hbmem : (b, units) ∈ before ++ (b, units) :: after := mem_middle.mpr (Or.inl rfl)
          obtain ⟨hstart, hbfits, hbend⟩ := h.block_bounds hbmem
          obtain ⟨hend, hlen, hheap⟩ := h.sentinel
          rw [List.length_cons] at hfuel hsteps
          obtain ⟨before', units', after', heap', hle, hrun, hgluing, hkeeps⟩ :=
            @mergeNext _ _ _ _ _ _ 0x10000 h hunstamped (Nat.le_add_left _ _)
          have hnext := hgluing.next_block
          dsimp only at hstart hbfits hbend hnext
          obtain ⟨held'', heap'', hrun', hgluing', hkeeps'⟩ :=
            @ih _ (before' ++ [(b, units')]) after' (steps + 1)
              (by rw [List.append_assoc]; exact hgluing) (hunstamped.keeps h.lists hkeeps) (by omega)
              (by omega)
          refine ⟨held'', heap'', ?_, hgluing', hkeeps.trans hkeeps'⟩
          have hlen' : heap'.bytes.length = arena.heap.bytes.length := hkeeps.length
          have hne : b ≠ arena.allocator.temporaryBlockPosition := by omega
          rw [List.map_cons, List.headD_cons, Ppmd.mergeBlocks, if_neg hne,
            lift_ok (add_of_lt (by omega) _), if_neg (by omega),
            Heap.read_bind (h.blockEnd_eq hbmem), step_ok hrun,
            Heap.read_bind (MemBlock.next_eq (by rw [hlen']; omega) (by rw [hlen']; exact hheap)), hnext]
          exact hrun'

/-! ### Releasing -/

/-- A block in hand lies in the arena. -/
theorem hand_bounds {size : Nat} (h : Gluing arena free held ((a, size) :: rest)) (hpos : 0 < size) :
    a + size ≤ arenaEnd arena :=
  (h.lists.tiles.block_bounds
    (List.mem_append_right _ (List.mem_append_right _ List.mem_cons_self)) hpos).2

/-- Which of two blocks comes first does not matter. -/
theorem swap {other : Nat × Nat} (h : Gluing arena free held (block :: other :: rest)) :
    Gluing arena free held (other :: block :: rest) :=
  ⟨h.lists.perm (List.Perm.append_left _ (List.Perm.swap _ _ _)), h.ring, h.stamps, h.units⟩

/-- Blocks of the largest class are cut off until what is left is not larger. -/
theorem cutLargest {fuel : Nat} (h : Gluing arena free held ((a, 12 * units) :: rest))
    (hpos : 0 < units) (hfuel : units < fuel) :
    ∃ a' units' free' arena', Ppmd.cutLargest fuel a units arena = .ok ((a', units'), arena') ∧
      0 < units' ∧ units' ≤ 128 ∧ Gluing arena' free' held ((a', 12 * units') :: rest) ∧
      Keeps rest arena arena' := by
  induction fuel generalizing arena free a units with
  | zero => exact absurd hfuel (Nat.not_lt_zero _)
  | succ fuel ih =>
      by_cases hlarge : units > 128
      · obtain ⟨hend, hlen, hheap⟩ := h.sentinel
        have hbounds := h.hand_bounds (show 0 < 12 * units by omega)
        have hcut : Gluing arena free held
            ((a, 12 * classUnits (nIndexes - 1)) :: (a + 12 * 128, 12 * (units - 128)) :: rest) := by
          have hsum : 128 + (units - 128) = units := by omega
          rw [← hsum] at h
          exact h.cut
        obtain ⟨arena', hrun, hgluing, hkeeps⟩ := hcut.insertNode (by decide)
        obtain ⟨a', units', free', arena'', hrun', hpos', hle', hgluing', hkeeps'⟩ :=
          ih hgluing (by omega) (by omega)
        refine ⟨a', units', free', arena'', ?_, hpos', hle', hgluing', hkeeps.of_cons.trans hkeeps'⟩
        rw [Ppmd.cutLargest, if_pos hlarge, step_ok hrun, lift_ok (bytesForUnits_eq (by decide)),
          lift_ok (add_of_lt (by omega) _), lift_ok (sub_of_le (by omega) _)]
        exact hrun'
      · refine ⟨a, units, free, arena, ?_, hpos, by omega, h, Keeps.refl arena⟩
        rw [Ppmd.cutLargest, if_neg hlarge]
        rfl

/-- A merged block is taken off the ring and goes back to the lists. -/
theorem releaseBlock (h : Gluing arena free ((a, units) :: held) rest) :
    ∃ free' arena', Ppmd.releaseBlock a arena = .ok ((), arena') ∧ Gluing arena' free' held rest ∧
      Keeps rest arena arena' := by
  obtain ⟨hpos, hlt⟩ := h.units (a, units) List.mem_cons_self
  obtain ⟨-, hfits, -⟩ := h.block_bounds List.mem_cons_self
  obtain ⟨hend, hlen, hheap⟩ := h.sentinel
  dsimp only at hpos hlt hfits
  have hsplit : Gluing arena free ([] ++ (a, units) :: held) rest := h
  obtain ⟨hgluing, hkeeps⟩ := hsplit.remove
  have hunits : word 2 (unlink arena.heap.bytes a) (a + 2) = units :=
    (hsplit.head_unlink List.mem_cons_self).2.trans (h.stamps _ List.mem_cons_self).2
  have hlen' : (unlink arena.heap.bytes a).length = arena.heap.bytes.length := length_unlink
  obtain ⟨a', units', free', arena', hrun, hpos', hle', hgluing', hkeeps'⟩ :=
    hgluing.cutLargest hpos (Nat.lt_succ_self units)
  have hclass := classOf_lt (units' - 1) (by omega)
  rw [Ppmd.releaseBlock, onHeap_bind hsplit.remove_eq,
    look_bind (MemBlock.units_eq (by rw [hlen']; omega) (by rw [hlen']; exact hheap)), hunits,
    step_ok hrun]
  dsimp only
  rw [lift_ok (sub_of_le hpos' _), asks_bind (hgluing'.lists.layout.unitIndex_eq (by omega)),
    asks_bind (hgluing'.lists.layout.unitsAt_eq hclass)]
  by_cases hexact : classUnits (classOf (units' - 1)) = units'
  · rw [if_neg (not_not_intro hexact)]
    have hput : Gluing arena' free' held
        ((a', 12 * classUnits (classOf (units' - 1))) :: rest) := by
      rw [hexact]
      exact hgluing'
    obtain ⟨arena'', hrun', hgluing'', hkeeps''⟩ := hput.insertNode hclass
    exact ⟨_, arena'', hrun', hgluing'', (hkeeps.trans hkeeps').trans hkeeps''⟩
  · rw [if_pos hexact]
    obtain ⟨hone, hbelow, hsmall⟩ := classOf_split (units' - 1) (by omega) (by omega)
    rw [Nat.sub_add_cancel hpos'] at hbelow hsmall
    have hlower : classOf (units' - 1) - 1 < nIndexes := by omega
    generalize hi : classOf (units' - 1) - 1 = i at hbelow hsmall hlower
    have hsum : classUnits i + (units' - classUnits i) = units' := by omega
    have hkept : units' - (units' - classUnits i) = classUnits i := by omega
    have hbounds := hgluing'.hand_bounds (show 0 < 12 * units' by omega)
    have hend' := hgluing'.sentinel
    have hcut := hgluing'
    rw [← hsum] at hcut
    have hswap := hcut.cut.swap
    have hfew := (classOf_small (units' - classUnits i) (by omega) (by omega)).2
    have hfree := hgluing'.lists.layout.unitsAt_eq hlower
    rw [← hfew] at hswap
    obtain ⟨first, hfirst, hgluing₁, hkeeps₁⟩ := hswap.insertNode (by show _ < 38; omega)
    obtain ⟨last, hlast, hgluing₂, hkeeps₂⟩ := hgluing₁.insertNode hlower
    refine ⟨_, last, ?_, hgluing₂, ((hkeeps.trans hkeeps').trans hkeeps₁.of_cons).trans hkeeps₂⟩
    rw [lift_ok (sub_of_le hone _), hi, asks_bind hfree, lift_ok (sub_of_le (by omega) _),
      lift_ok (sub_of_le (by omega) _), hkept, lift_ok (bytesForUnits_eq (by omega)),
      lift_ok (add_of_lt (by omega) _), lift_ok (sub_of_le (by omega) _), step_ok hfirst, hlast]

/-- The second loop over the ring ends with the ring empty. -/
theorem releaseBlocks {maximumSteps fuel steps : Nat} (h : Gluing arena free held rest)
    (hfuel : held.length < fuel) (hsteps : steps + held.length ≤ maximumSteps)
    (hmaximum : maximumSteps < 2 ^ 32) :
    ∃ free' arena', Ppmd.releaseBlocks arena.allocator.temporaryBlockPosition maximumSteps fuel
        ((held.map Prod.fst).headD arena.allocator.temporaryBlockPosition) steps arena
        = .ok ((), arena') ∧
      Gluing arena' free' [] rest ∧ Keeps rest arena arena' := by
  induction fuel generalizing arena free held steps with
  | zero => exact absurd hfuel (Nat.not_lt_zero _)
  | succ fuel ih =>
      cases held with
      | nil =>
          refine ⟨free, arena, ?_, h, Keeps.refl arena⟩
          rw [List.map_nil, List.headD_nil, Ppmd.releaseBlocks, if_pos rfl]
          rfl
      | cons block held =>
          obtain ⟨a, units⟩ := block
          obtain ⟨-, hfits, -⟩ := h.block_bounds List.mem_cons_self
          have hsentinel := h.sentinel
          dsimp only at hfits
          rw [List.length_cons] at hfuel hsteps
          obtain ⟨free', arena', hrun, hgluing, hkeeps⟩ := h.releaseBlock
          have hnext := hgluing.next_sentinel
          obtain ⟨free'', arena'', hrun', hgluing', hkeeps'⟩ :=
            @ih _ _ _ (steps + 1) hgluing (by omega) (by omega)
          refine ⟨free'', arena'', ?_, hgluing', hkeeps.trans hkeeps'⟩
          have hne : a ≠ arena.allocator.temporaryBlockPosition := by omega
          have hat := hgluing.sentinel
          rw [List.map_cons, List.headD_cons, Ppmd.releaseBlocks, if_neg hne,
            lift_ok (add_of_lt (by omega) _), if_neg (by omega), step_ok hrun, ← hkeeps.allocator,
            look_bind (MemBlock.next_eq (by omega) hat.2.2), hnext]
          exact hrun'

/-- There are no more blocks on the ring than the steps are counted for. -/
theorem length_held_le (h : Gluing arena free held rest) :
    held.length ≤ arena.heap.bytes.length / rarMemBlockSize := by
  have hcover : ∀ x, covers (held.map heldBlock) x ≤ 1 := by
    intro x
    have hone := h.lists.tiles.covers_le x
    rw [covers_append, covers_append] at hone
    omega
  have hsentinel := h.sentinel
  have hcount := @length_mul_le (held.map heldBlock) (arenaEnd arena) 12 hcover
    (fun block hblock => by
      obtain ⟨block', hblock', rfl⟩ := List.mem_map.mp hblock
      have hpos := (h.units block' hblock').1
      show 12 ≤ 12 * block'.2
      omega)
    fun block hblock => by
      obtain ⟨block', hblock', rfl⟩ := List.mem_map.mp hblock
      exact (h.block_bounds hblock').2.2
  rw [List.length_map] at hcount
  show held.length ≤ arena.heap.bytes.length / 12
  omega

/-- From a ring without blocks on, the three rounds put every free block back. -/
theorem glue (h : Gluing arena free [] rest) (hunstamped : Unstamped arena rest) :
    ∃ free' arena', glueRounds arena.allocator.temporaryBlockPosition arena = .ok ((), arena') ∧
      Lists arena' free' rest ∧ Keeps rest arena arena' := by
  obtain ⟨held, arena₁, hcollect, hgluing₁, hkeeps₁⟩ := h.collect_all
  have hsame₁ : arena₁.allocator.temporaryBlockPosition = arena.allocator.temporaryBlockPosition := by
    rw [hkeeps₁.allocator]
  have hlen₁ := hkeeps₁.length
  have hsentinel₁ := hgluing₁.sentinel
  have hheld := hgluing₁.length_held_le
  have hmaximum : arena.heap.bytes.length / rarMemBlockSize + 1 < 2 ^ 32 := by
    show arena.heap.bytes.length / 12 + 1 < 2 ^ 32
    omega
  have hnext₁ := hgluing₁.next_sentinel
  obtain ⟨held₂, heap₂, hmerge, hgluing₂, hkeeps₂⟩ :=
    @mergeBlocks arena₁ rest [] held (arena.heap.bytes.length / rarMemBlockSize + 1)
      (arena.heap.bytes.length / rarMemBlockSize + 1 + 1) 0 hgluing₁ (hunstamped.keeps h.lists hkeeps₁)
      (by rw [← hlen₁]; omega) (by rw [← hlen₁]; omega) hmaximum
  have hsentinel₂ := hgluing₂.sentinel
  have hlen₂ := hkeeps₂.length
  have hheld₂ := hgluing₂.length_held_le
  have hnext₂ := hgluing₂.next_sentinel
  dsimp only at hsentinel₂ hlen₂ hheld₂ hnext₂
  obtain ⟨free', arena₃, hrelease, hgluing₃, hkeeps₃⟩ :=
    @releaseBlocks { arena₁ with heap := heap₂ } [] held₂ rest
      (arena.heap.bytes.length / rarMemBlockSize + 1)
      (arena.heap.bytes.length / rarMemBlockSize + 1 + 1) 0 hgluing₂
      (by rw [← hlen₁, ← hlen₂]; omega) (by rw [← hlen₁, ← hlen₂]; omega) hmaximum
  refine ⟨free', arena₃, ?_, hgluing₃.lists, (hkeeps₁.trans hkeeps₂).trans hkeeps₃⟩
  have hlength : onHeap (Heap.read fun heap => pure heap.bytes.length) arena
      = .ok (arena.heap.bytes.length, arena) := rfl
  rw [glueRounds, step_ok hlength, step_ok hcollect, checkedAdd_of_lt hmaximum,
    lift_ok (orFormatError_some _ _), ← hsame₁,
    look_bind (MemBlock.next_eq (by omega) hsentinel₁.2.2), hnext₁, onHeap_bind hmerge,
    look_bind (MemBlock.next_eq (by dsimp only; omega) hsentinel₂.2.2)]
  dsimp only
  rw [hnext₂]
  exact hrelease

end Gluing

/-! ### The whole -/

namespace Lists

variable {arena : Arena} {free rest live : List (Nat × Nat)}

/-- The ring is set up without blocks. -/
theorem startRing (h : Lists arena free rest) :
    ∃ heap heap', MemBlock.setPrevious arena.allocator.temporaryBlockPosition
        arena.allocator.temporaryBlockPosition arena.heap = .ok ((), heap) ∧
      MemBlock.setNext arena.allocator.temporaryBlockPosition
        arena.allocator.temporaryBlockPosition heap = .ok ((), heap') ∧
      Gluing { arena with heap := heap' } free [] rest ∧
      Keeps rest arena { arena with heap := heap' } := by
  have hend := h.layout.arenaEnd_lt
  have htemp := h.layout.temporary
  have hlen := h.layout.length
  have hheap := h.layout.length_lt
  generalize hs : arena.allocator.temporaryBlockPosition = s at htemp hlen
  have hfits : s + 12 ≤ arena.heap.bytes.length := by omega
  have hlen' : (setPrevious arena.heap.bytes s s).length = arena.heap.bytes.length :=
    length_setPrevious
  have hfits' : s + 12 ≤ (setPrevious arena.heap.bytes s s).length := by rw [hlen']; exact hfits
  have hfar : ∀ x < s, get (setNext (setPrevious arena.heap.bytes s s) s s) x
      = get arena.heap.bytes x := fun x hx => by
    rw [get_setNext hfits' (by omega), get_setPrevious hfits (by omega)]
  have hnext : nextOf (setNext (setPrevious arena.heap.bytes s s) s s) s = s := by
    rw [nextOf_setNext hfits' (by omega) (Or.inl rfl), if_pos rfl]
  have hprevious : previousOf (setNext (setPrevious arena.heap.bytes s s) s s) s = s := by
    rw [previousOf_setNext hfits' (Or.inl rfl), previousOf_setPrevious hfits (by omega) (Or.inl rfl),
      if_pos rfl]
  have hlength : (setNext (setPrevious arena.heap.bytes s s) s s).length
      = arena.heap.bytes.length := by rw [length_setNext, hlen']
  refine ⟨_, _, MemBlock.setPrevious_eq hfits hheap,
    MemBlock.setNext_eq hfits' (by rw [hlen']; exact hheap), ⟨?_, ?_, ?_, ?_⟩, rfl, hlength,
    fun x hx _ => hfar x (by omega)⟩
  · refine h.memory hlength (fun block hblock x hx => hfar x ?_) fun x _ hx => hfar x (by omega)
    have hbounds := (h.block_bounds hblock).2.2
    have hlt : x < block.2 + 12 * classUnits block.1 := hx.2
    omega
  · dsimp only
    rw [hs]
    exact ⟨hnext, hprevious, trivial⟩
  · exact fun block hblock => absurd hblock List.not_mem_nil
  · exact fun block hblock => absurd hblock List.not_mem_nil

/-- The first byte of the gap is cleared, if there is a gap. -/
theorem clearGap (h : Lists arena free ((arena.allocator.lowUnit,
      arena.allocator.highUnit - arena.allocator.lowUnit) :: live))
    (hle : arena.allocator.lowUnit ≤ arena.allocator.highUnit) :
    ∃ heap, Ppmd.clearGap arena = .ok ((), { arena with heap }) ∧
      Lists { arena with heap } free ((arena.allocator.lowUnit,
        arena.allocator.highUnit - arena.allocator.lowUnit) :: live) ∧
      Keeps live arena { arena with heap } ∧
      (arena.allocator.lowUnit ≠ arena.allocator.highUnit →
        get heap.bytes arena.allocator.lowUnit = 0) := by
  unfold Ppmd.clearGap
  rw [step_ok (show asks pure arena = .ok (arena.allocator, arena) from rfl)]
  by_cases hgap : arena.allocator.lowUnit = arena.allocator.highUnit
  · rw [if_neg (not_not_intro hgap)]
    exact ⟨arena.heap, rfl, h, Keeps.refl arena, fun hne => absurd hgap hne⟩
  · rw [if_pos hgap]
    have hend := h.layout.arenaEnd_lt
    have htemp := h.layout.temporary
    have hlen := h.layout.length
    have hin : In (arena.allocator.lowUnit, arena.allocator.highUnit - arena.allocator.lowUnit)
        arena.allocator.lowUnit := ⟨Nat.le_refl _, by dsimp only; omega⟩
    have hspare : Spare arena live arena.allocator.lowUnit :=
      @Lists.spare arena free live _ [_] h (List.mem_singleton_self _) _ hin
    have hlow := hspare.2.1
    have hfar : ∀ x, x ≠ arena.allocator.lowUnit →
        get (arena.heap.bytes.set arena.allocator.lowUnit 0) x = get arena.heap.bytes x :=
      fun x hx => by rw [get_set (by omega), if_neg hx]
    refine ⟨⟨arena.heap.bytes.set arena.allocator.lowUnit 0⟩,
      onHeap_eq (Heap.putByte_eq (by omega) _), ?_, ⟨rfl, List.length_set, fun x _ hnot => ?_⟩,
      fun _ => by rw [get_set (by omega), if_pos rfl]⟩
    · refine h.memory List.length_set (fun block hblock x hx => hfar x fun heq => ?_)
        fun x hx _ => hfar x (by omega)
      rw [heq] at hx
      exact (h.tiles.perm List.perm_middle).apart
        (List.mem_append_left _ (List.mem_map_of_mem hblock)) hin hx
    · exact hfar x fun heq => hnot (heq ▸ hspare)

/-- Gluing keeps what is handed out, and every block that was free still is. -/
theorem glueFreeBlocks (h : Lists arena free ((arena.allocator.lowUnit,
      arena.allocator.highUnit - arena.allocator.lowUnit) :: live))
    (hle : arena.allocator.lowUnit ≤ arena.allocator.highUnit)
    (hgap : (arena.allocator.highUnit - arena.allocator.lowUnit) % 12 = 0)
    (hlive : Unstamped arena live) :
    ∃ free' arena', Ppmd.glueFreeBlocks arena = .ok ((), arena') ∧
      Lists arena' free' ((arena.allocator.lowUnit,
        arena.allocator.highUnit - arena.allocator.lowUnit) :: live) ∧
      Keeps live arena arena' := by
  obtain ⟨heap, hclear, hlists, hkeeps, hzero⟩ := h.clearGap hle
  obtain ⟨heap₁, heap₂, hprevious, hnext, hgluing, hkeeps'⟩ := hlists.startRing
  have hlive' : Unstamped { arena with heap } live := @Unstamped.keeps _ _ free [_] live hlive h hkeeps
  have hunstamped : Unstamped { arena with heap } ((arena.allocator.lowUnit,
      arena.allocator.highUnit - arena.allocator.lowUnit) :: live) := by
    refine ⟨fun block hblock hpos => ?_, hlive'.pad⟩
    rcases List.mem_cons.mp hblock with heq | hblock
    · rw [heq] at hpos ⊢
      dsimp only at hpos ⊢
      refine ⟨by omega, ?_⟩
      rw [word, hzero (by omega)]
      have hnext := word_lt 1 heap.bytes (arena.allocator.lowUnit + 1)
      rw [UInt8.toNat_zero]
      omega
    · exact hlive'.blocks block hblock hpos
  obtain ⟨free', arena', hrun, hlists', hkeeps''⟩ :=
    hgluing.glue (@Unstamped.keeps _ _ free [] _ hunstamped hlists hkeeps')
  refine ⟨free', arena', ?_, hlists', (hkeeps.trans hkeeps'.of_cons).trans hkeeps''.of_cons⟩
  dsimp only at hprevious hnext hrun
  have hask : asks pure { arena with heap } = .ok (arena.allocator, { arena with heap }) := rfl
  rw [Ppmd.glueFreeBlocks, step_ok hclear, step_ok hask, onHeap_bind hprevious, onHeap_bind hnext]
  exact hrun

end Lists

end Ppmd

end Un7z
