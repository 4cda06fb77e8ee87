/-
Gluing loses no block.

While the free blocks are glued they are on a ring, and each is stamped and knows its units:
`Gluing` says so next to what is on the lists already, or again.  A block that is stamped
behind another one is a block of the ring, since what is handed out is not stamped and the
gap is not either; so a block only ever grows by another one, and the units that are tiled
stay the same.
-/
import Un7z.Proofs.FreeLists

namespace Un7z

namespace Ppmd

open ByteMemory LinkedBlocks Cover SubAllocator

/-- What does not belong to the rest, inside the units. -/
def Spare (arena : Arena) (rest : List (Nat × Nat)) (x : Nat) : Prop :=
  arena.allocator.unitsStart ≤ x ∧ x < arenaEnd arena ∧ covers rest x = 0

/-- The rest keeps its bytes, and so does everything below the units. -/
structure Keeps (rest : List (Nat × Nat)) (arena arena' : Arena) : Prop where
  allocator : arena'.allocator = arena.allocator
  length : arena'.heap.bytes.length = arena.heap.bytes.length
  get : ∀ x < arena.allocator.freeListPosition, ¬ Spare arena rest x →
    get arena'.heap.bytes x = get arena.heap.bytes x

namespace Keeps

variable {rest : List (Nat × Nat)} {block : Nat × Nat} {arena arena' arena'' : Arena}

theorem refl (arena : Arena) : Keeps rest arena arena := ⟨rfl, rfl, fun _ _ _ => rfl⟩

theorem trans (h : Keeps rest arena arena') (h' : Keeps rest arena' arena'') :
    Keeps rest arena arena'' := by
  refine ⟨h'.allocator.trans h.allocator, h'.length.trans h.length, fun x hx hnot => ?_⟩
  have hnot' : ¬ Spare arena' rest x := by
    rw [Spare, arenaEnd, h.allocator]
    exact hnot
  rw [h'.get x (h.allocator ▸ hx) hnot', h.get x hx hnot]

/-- With less to keep, less is kept. -/
theorem of_cons (h : Keeps (block :: rest) arena arena') : Keeps rest arena arena' := by
  refine ⟨h.allocator, h.length, fun x hx hnot => h.get x hx (mt (fun hspare => ?_) hnot)⟩
  obtain ⟨hlo, hhi, hzero⟩ := hspare
  rw [covers_cons] at hzero
  exact ⟨hlo, hhi, by omega⟩

end Keeps

/-- A block that is tiled next to the rest is not of the rest. -/
theorem Lists.spare {arena : Arena} {free rest : List (Nat × Nat)} {block : Nat × Nat}
    {blocks : List (Nat × Nat)} (h : Lists arena free (blocks ++ rest)) (hmem : block ∈ blocks)
    {x : Nat} (hx : In block x) : Spare arena rest x := by
  have hmem' : block ∈ free.map freeBlock ++ (blocks ++ rest) :=
    List.mem_append_right _ (List.mem_append_left _ hmem)
  have hbounds := h.tiles.bounds hmem' hx
  have hone := h.tiles.covers_le x
  have hpos := covers_pos hmem hx
  rw [covers_append, covers_append] at hone
  exact ⟨hbounds.1, hbounds.2, by omega⟩

theorem Lists.spare_free {arena : Arena} {free rest : List (Nat × Nat)} {block : Nat × Nat}
    (h : Lists arena free rest) (hmem : block ∈ free) {x : Nat} (hx : In (freeBlock block) x) :
    Spare arena rest x := by
  have hmem' := List.mem_map_of_mem (f := freeBlock) hmem
  have hbounds := h.tiles.bounds (List.mem_append_left _ hmem') hx
  have hone := h.tiles.covers_le x
  have hpos := covers_pos hmem' hx
  rw [covers_append] at hone
  exact ⟨hbounds.1, hbounds.2, by omega⟩

/-! ### The ring -/

/-- A block of the ring: its address and its units. -/
def heldBlock (block : Nat × Nat) : Nat × Nat := (block.1, 12 * block.2)

/-- The free lists and the ring while the blocks are glued. -/
structure Gluing (arena : Arena) (free held rest : List (Nat × Nat)) : Prop where
  lists : Lists arena free (held.map heldBlock ++ rest)
  ring : Ring arena.heap.bytes arena.allocator.temporaryBlockPosition (held.map Prod.fst)
  stamps : ∀ block ∈ held, word 2 arena.heap.bytes block.1 = 0xffff ∧
    word 2 arena.heap.bytes (block.1 + 2) = block.2
  units : ∀ block ∈ held, 0 < block.2 ∧ block.2 < 0x10000

namespace Gluing

variable {arena : Arena} {free held rest : List (Nat × Nat)} {block : Nat × Nat}

/-- A block of the ring lies in the arena. -/
theorem block_bounds (h : Gluing arena free held rest) (hmem : block ∈ held) :
    0 < block.1 ∧ block.1 + 12 ≤ arenaEnd arena ∧ block.1 + 12 * block.2 ≤ arenaEnd arena := by
  have hpos := (h.units block hmem).1
  have hbounds := @Tiles.block_bounds _ (heldBlock block) _ _ h.lists.tiles
    (List.mem_append_right _ (List.mem_append_left _ (List.mem_map_of_mem hmem)))
    (show 0 < 12 * block.2 by omega)
  have hstart := h.lists.start_pos
  have hlo : arena.allocator.unitsStart ≤ block.1 := hbounds.1
  have hhi : block.1 + 12 * block.2 ≤ arenaEnd arena := hbounds.2
  omega

/-- The sentinel is in memory, behind the arena. -/
theorem sentinel (h : Gluing arena free held rest) :
    arenaEnd arena < arena.allocator.temporaryBlockPosition ∧
      arena.allocator.temporaryBlockPosition + 12 = arena.heap.bytes.length ∧
      arena.heap.bytes.length < 2 ^ 32 := by
  have hend := h.lists.layout.arenaEnd_lt
  have htemp := h.lists.layout.temporary
  have hlength := h.lists.layout.length
  have hheap := h.lists.layout.length_lt
  omega

/-- Blocks of a list that are tiled do not overlap. -/
theorem laid_of_lists {arena : Arena} {free held rest : List (Nat × Nat)}
    (h : Lists arena free (held.map heldBlock ++ rest)) (hunits : ∀ block ∈ held, 0 < block.2) :
    Laid arena.heap.bytes (arena.allocator.temporaryBlockPosition :: held.map Prod.fst) := by
  have hend := h.layout.arenaEnd_lt
  have htemp := h.layout.temporary
  have hlength := h.layout.length
  have hheap := h.layout.length_lt
  have hmem : ∀ block ∈ held, heldBlock block ∈ free.map freeBlock ++ (held.map heldBlock ++ rest) :=
    fun block hblock => List.mem_append_right _ (List.mem_append_left _ (List.mem_map_of_mem hblock))
  have hbounds : ∀ block ∈ held, block.1 + 12 ≤ arenaEnd arena := by
    intro block hblock
    have hpos := hunits block hblock
    have hfits := (h.tiles.block_bounds (hmem block hblock) (show 0 < 12 * block.2 by omega)).2
    have hfits' : block.1 + 12 * block.2 ≤ arenaEnd arena := hfits
    omega
  have hcover : ∀ x, covers (held.map heldBlock) x ≤ 1 := by
    intro x
    have hone := h.tiles.covers_le x
    rw [covers_append, covers_append] at hone
    omega
  have hnodup : (held.map Prod.fst).Nodup := by
    have hstarts := nodup_starts hcover fun block hblock => by
      obtain ⟨held', hheld', rfl⟩ := List.mem_map.mp hblock
      have hpos := hunits held' hheld'
      show 0 < 12 * held'.2
      omega
    rwa [List.map_map] at hstarts
  refine ⟨List.nodup_cons.mpr ⟨fun hs => ?_, hnodup⟩, ?_, ?_, ?_⟩
  · obtain ⟨block, hblock, hsame⟩ := List.mem_map.mp hs
    have hfits := hbounds block hblock
    omega
  · intro c hc d hd
    rcases List.mem_cons.mp hc with rfl | hc
    · rcases List.mem_cons.mp hd with rfl | hd
      · exact Or.inl rfl
      · obtain ⟨block, hblock, rfl⟩ := List.mem_map.mp hd
        have hfits := hbounds block hblock
        exact Or.inr (Or.inr (by omega))
    · obtain ⟨block, hblock, rfl⟩ := List.mem_map.mp hc
      have hfits := hbounds block hblock
      rcases List.mem_cons.mp hd with rfl | hd
      · exact Or.inr (Or.inl (by omega))
      · obtain ⟨other, hother, rfl⟩ := List.mem_map.mp hd
        by_cases hsame : block = other
        · exact Or.inl (congrArg Prod.fst hsame)
        · have hpos := hunits block hblock
          have hpos' := hunits other hother
          have hne : heldBlock block ≠ heldBlock other := by
            intro heq
            obtain ⟨hfst, hsnd⟩ := Prod.mk.inj heq
            exact hsame (Prod.ext hfst (by omega))
          have hcut := h.tiles.before_or_after_of_ne (hmem block hblock) (hmem other hother) hne
            (show 0 < 12 * block.2 by omega) (show 0 < 12 * other.2 by omega)
          have hcut' : block.1 + 12 * block.2 ≤ other.1 ∨ other.1 + 12 * other.2 ≤ block.1 := hcut
          exact Or.inr (by omega)
  · intro c hc
    rcases List.mem_cons.mp hc with rfl | hc
    · omega
    · obtain ⟨block, hblock, rfl⟩ := List.mem_map.mp hc
      have hfits := hbounds block hblock
      omega
  · intro c hc
    rcases List.mem_cons.mp hc with rfl | hc
    · omega
    · obtain ⟨block, hblock, rfl⟩ := List.mem_map.mp hc
      have hfits := hbounds block hblock
      omega

theorem laid (h : Gluing arena free held rest) :
    Laid arena.heap.bytes (arena.allocator.temporaryBlockPosition :: held.map Prod.fst) :=
  laid_of_lists h.lists fun block hblock => (h.units block hblock).1

/-- The ring depends on the bytes of its blocks and on the sentinel. -/
theorem congr {arena' : Arena} {free' rest' : List (Nat × Nat)} (h : Gluing arena free held rest)
    (hlists : Lists arena' free' (held.map heldBlock ++ rest'))
    (hallocator : arena'.allocator = arena.allocator)
    (hsentinel : ∀ x, arena.allocator.temporaryBlockPosition ≤ x →
      get arena'.heap.bytes x = get arena.heap.bytes x)
    (hheld : ∀ block ∈ held, ∀ x, In (heldBlock block) x →
      get arena'.heap.bytes x = get arena.heap.bytes x) :
    Gluing arena' free' held rest' := by
  have hbytes : ∀ block ∈ held, ∀ x, block.1 ≤ x → x < block.1 + 12 →
      get arena'.heap.bytes x = get arena.heap.bytes x := by
    intro block hblock x hle hlt
    have hpos := (h.units block hblock).1
    exact hheld block hblock x ⟨hle, by show x < block.1 + 12 * block.2; omega⟩
  refine ⟨hlists, ?_, fun block hblock => ⟨?_, ?_⟩, h.units⟩
  · rw [hallocator]
    refine h.ring.congr fun c hc x hle hlt => ?_
    rcases List.mem_cons.mp hc with rfl | hc
    · exact hsentinel x (by omega)
    · obtain ⟨block, hblock, rfl⟩ := List.mem_map.mp hc
      exact hbytes block hblock x (by omega) hlt
  · rw [← (h.stamps block hblock).1]
    exact word_congr fun x hle hlt => hbytes block hblock x hle (by omega)
  · rw [← (h.stamps block hblock).2]
    exact word_congr fun x hle hlt => hbytes block hblock x (by omega) (by omega)

variable {a index : Nat}

/-- A block in hand is not on the ring. -/
theorem not_in_hand {size : Nat} (h : Gluing arena free held ((a, size) :: rest))
    (hblock : block ∈ held) {x : Nat} (hx : In (heldBlock block) x) : ¬ In (a, size) x := by
  have hperm : (free.map freeBlock ++ (held.map heldBlock ++ (a, size) :: rest)).Perm
      ((a, size) :: (free.map freeBlock ++ (held.map heldBlock ++ rest))) :=
    (List.Perm.append_left _ List.perm_middle).trans List.perm_middle
  intro hin
  exact (h.lists.tiles.perm hperm).apart
    (List.mem_append_right _ (List.mem_append_left _ (List.mem_map_of_mem hblock))) hin hx

/-- A block in hand is spare. -/
theorem spare_hand {size : Nat} (h : Gluing arena free held ((a, size) :: rest)) {x : Nat}
    (hx : In (a, size) x) : Spare arena rest x := by
  have hlists : Lists arena free ((held.map heldBlock ++ [(a, size)]) ++ rest) := by
    rw [List.append_assoc]
    exact h.lists
  exact hlists.spare (List.mem_append_right _ (List.mem_singleton_self _)) hx

theorem insertNode (h : Gluing arena free held ((a, 12 * classUnits index) :: rest))
    (hindex : index < nIndexes) :
    ∃ arena', Ppmd.insertNode a index arena = .ok ((), arena') ∧
      Gluing arena' ((index, a) :: free) held rest ∧ Keeps rest arena arena' := by
  obtain ⟨arena', hrun, hlists, htouches⟩ := (h.lists.perm List.perm_middle).insertNode hindex
  have hsentinel := h.sentinel
  refine ⟨arena', hrun, h.congr hlists htouches.allocator (fun x hx => ?_) fun block hblock x hx => ?_,
    htouches.allocator, htouches.length, fun x hx hnot => ?_⟩
  · refine htouches.get x (Or.inr hx) fun hin => ?_
    have hspare := (h.spare_hand hin).2.1
    omega
  · refine htouches.get x (Or.inl ?_) (h.not_in_hand hblock hx)
    have hend := h.lists.layout.arenaEnd_lt
    have hbounds := (h.block_bounds hblock).2.2
    have hlt : x < block.1 + 12 * block.2 := hx.2
    omega
  · exact htouches.get x (Or.inl hx) fun hin => hnot (h.spare_hand hin)

theorem removeNode (h : Gluing arena free held rest) (hindex : index < nIndexes) {more : List Nat}
    (hlist : listOf free index = a :: more) :
    ∃ free' arena', Ppmd.removeNode index arena = .ok (a, arena') ∧
      Gluing arena' free' held ((a, 12 * classUnits index) :: rest) ∧ Keeps rest arena arena' ∧
      listOf free' index = more ∧ ∀ other, other ≠ index → listOf free' other = listOf free other := by
  obtain ⟨free', arena', hrun, hlists, htouches, -, hmore, hothers⟩ := h.lists.removeNode hindex hlist
  refine ⟨free', arena', hrun, h.congr (hlists.perm List.perm_middle.symm) htouches.allocator
    (fun x hx => htouches.get x (Or.inr hx) id) fun block hblock x hx => ?_,
    ⟨htouches.allocator, htouches.length, fun x hx _ => htouches.get x (Or.inl hx) id⟩, hmore, hothers⟩
  refine htouches.get x (Or.inl ?_) id
  have hend := h.lists.layout.arenaEnd_lt
  have hbounds := (h.block_bounds hblock).2.2
  have hlt : x < block.1 + 12 * block.2 := hx.2
  omega

/-- A block in hand is cut in two. -/
theorem cut {m n : Nat} (h : Gluing arena free held ((a, 12 * (m + n)) :: rest)) :
    Gluing arena free held ((a, 12 * m) :: (a + 12 * m, 12 * n) :: rest) := by
  refine ⟨?_, h.ring, h.stamps, h.units⟩
  have hcut := (h.lists.perm List.perm_middle).cut
  refine hcut.perm ?_
  exact ((List.Perm.cons _ List.perm_middle.symm).trans List.perm_middle.symm)

/-- A block of the ring and the sentinel are in memory. -/
theorem fits (h : Gluing arena free held rest) {c : Nat}
    (hc : c ∈ arena.allocator.temporaryBlockPosition :: held.map Prod.fst) :
    c + 12 ≤ arena.heap.bytes.length := h.laid.fits c hc

/-- What follows the sentinel. -/
theorem next_sentinel (h : Gluing arena free held rest) :
    nextOf arena.heap.bytes arena.allocator.temporaryBlockPosition
      = (held.map Prod.fst).headD arena.allocator.temporaryBlockPosition := by
  obtain ⟨n, right, hright, hnext, -⟩ := h.ring.first
  rw [hnext]
  cases held with
  | nil => exact (List.cons.inj hright).1.symm
  | cons block held => exact (List.cons.inj hright).1.symm

/-- What follows a block of the ring. -/
theorem next_block {before after : List (Nat × Nat)}
    (h : Gluing arena free (before ++ block :: after) rest) :
    nextOf arena.heap.bytes block.1
      = (after.map Prod.fst).headD arena.allocator.temporaryBlockPosition := by
  have hring := h.ring
  rw [List.map_append, List.map_cons] at hring
  obtain ⟨-, -, n, right, -, hright, -, hnext, -, -⟩ := hring.neighbours
  rw [hnext]
  cases after with
  | nil => exact (List.cons.inj hright).1.symm
  | cons block after => exact (List.cons.inj hright).1.symm

theorem headD_mem {s : Nat} (nodes : List Nat) : nodes.headD s ∈ s :: nodes := by
  cases nodes with
  | nil => exact List.mem_cons_self
  | cons a nodes => exact List.mem_cons_of_mem _ List.mem_cons_self

end Gluing

/-- A change of the blocks of the ring and behind the arena leaves the lists and the rest. -/
theorem Lists.change_held {arena : Arena} {free held rest : List (Nat × Nat)} {bytes : Bytes}
    (h : Lists arena free (held.map heldBlock ++ rest))
    (hlength : bytes.length = arena.heap.bytes.length)
    (hfar : ∀ x < arena.allocator.temporaryBlockPosition,
      (∀ block ∈ held, ¬ In (heldBlock block) x) → get bytes x = get arena.heap.bytes x) :
    Lists { arena with heap := ⟨bytes⟩ } free (held.map heldBlock ++ rest) ∧
      Keeps rest arena { arena with heap := ⟨bytes⟩ } := by
  have hend := h.layout.arenaEnd_lt
  have htemp := h.layout.temporary
  refine ⟨h.memory hlength (fun block hblock x hx => hfar x ?_ fun other hother hin => ?_)
    fun x hx hx' => hfar x hx' fun other hother hin => ?_, rfl, hlength, fun x hx hnot =>
    hfar x ?_ fun other hother hin => ?_⟩
  · have hbounds := (h.block_bounds hblock).2.2
    have hlt : x < block.2 + 12 * classUnits block.1 := hx.2
    omega
  · obtain ⟨left, right, hsplit⟩ := List.append_of_mem (List.mem_map_of_mem (f := heldBlock) hother)
    have htiles := h.tiles
    rw [hsplit, List.append_assoc] at htiles
    exact (htiles.perm ((List.Perm.append_left _ List.perm_middle).trans List.perm_middle)).apart
      (List.mem_append_left _ (List.mem_map_of_mem hblock)) hin hx
  · have hbounds := (h.spare (List.mem_map_of_mem hother) hin).2.1
    omega
  · omega
  · exact hnot (h.spare (List.mem_map_of_mem hother) hin)

/-- The memory once a block is on the ring, with its stamp and its units. -/
def collected (bytes : Bytes) (sentinel block units : Nat) : Bytes :=
  putWord 2 (putWord 2 (link bytes sentinel block) block 0xffff) (block + 2) units

section collected

variable {bytes : Bytes} {s a units x : Nat} {nodes : List Nat}

@[simp] theorem length_collected : (collected bytes s a units).length = bytes.length := by
  rw [collected, length_putWord, length_putWord, length_link]

/-- Behind the first word of the block the stamp and the units change nothing. -/
theorem get_collected (hfits : a + 12 ≤ bytes.length) (hx : x < a ∨ a + 4 ≤ x) :
    get (collected bytes s a units) x = get (link bytes s a) x := by
  rw [collected, get_putWord_of_apart (by rw [length_putWord, length_link]; omega) (by omega),
    get_putWord_of_apart (by rw [length_link]; omega) (by omega)]

theorem stamp_collected (hfits : a + 12 ≤ bytes.length) (hunits : units < 0x10000) :
    word 2 (collected bytes s a units) a = 0xffff ∧
      word 2 (collected bytes s a units) (a + 2) = units := by
  refine ⟨?_, word_putWord (by rw [length_putWord, length_link]; omega) hunits⟩
  rw [collected, word_putWord_of_apart (by rw [length_putWord, length_link]; omega) (by omega),
    word_putWord (by rw [length_link]; omega) (by decide)]

theorem ring_collected (h : Ring bytes s nodes) (hlaid : Laid bytes (s :: a :: nodes)) :
    Ring (collected bytes s a units) s (a :: nodes) := by
  have hamem : a ∈ s :: a :: nodes := List.mem_cons_of_mem _ List.mem_cons_self
  refine (Ring.link h hlaid).1.congr fun c hc x hle hlt => get_collected (hlaid.fits a hamem) ?_
  rcases hlaid.spaced c hc a hamem with rfl | hapart <;> omega

/-- A byte that is not a link of the ring, nor of the block. -/
theorem get_collected_of_far (h : Ring bytes s nodes) (hlaid : Laid bytes (s :: a :: nodes))
    (hnodes : ∀ c ∈ s :: a :: nodes, x < c + 4 ∨ c + 12 ≤ x) (hx : x < a ∨ a + 4 ≤ x) :
    get (collected bytes s a units) x = get bytes x := by
  have hamem : a ∈ s :: a :: nodes := List.mem_cons_of_mem _ List.mem_cons_self
  exact (get_collected (hlaid.fits a hamem) hx).trans ((Ring.link h hlaid).2 x hnodes)

end collected

namespace Gluing

variable {arena : Arena} {free held rest : List (Nat × Nat)} {block : Nat × Nat} {a index : Nat}

/-- The first byte of a block of the ring is in the block, and the others up to the twelfth. -/
theorem in_held (hunits : 0 < block.2) {x : Nat} (hle : block.1 ≤ x) (hlt : x < block.1 + 12) :
    In (heldBlock block) x := ⟨hle, by show x < block.1 + 12 * block.2; omega⟩

/-- The block in hand and those of the ring do not overlap. -/
theorem laid_hand {units : Nat} (h : Gluing arena free held ((a, 12 * units) :: rest))
    (hpos : 0 < units) :
    Laid arena.heap.bytes (arena.allocator.temporaryBlockPosition :: a :: held.map Prod.fst) := by
  have hlists : Lists arena free (((a, units) :: held).map heldBlock ++ rest) :=
    h.lists.perm List.perm_middle
  refine laid_of_lists hlists fun block hblock => ?_
  rcases List.mem_cons.mp hblock with heq | hblock
  · rw [heq]
    exact hpos
  · exact (h.units block hblock).1

/-- The block in hand is put behind the sentinel. -/
theorem insertAt_eq {units : Nat} (h : Gluing arena free held ((a, 12 * units) :: rest))
    (hpos : 0 < units) :
    MemBlock.insertAt a arena.allocator.temporaryBlockPosition arena.heap
      = .ok ((), ⟨link arena.heap.bytes arena.allocator.temporaryBlockPosition a⟩) := by
  have hlaid := h.laid_hand hpos
  have hamem : a ∈ arena.allocator.temporaryBlockPosition :: a :: held.map Prod.fst :=
    List.mem_cons_of_mem _ List.mem_cons_self
  have hsmem : arena.allocator.temporaryBlockPosition
      ∈ arena.allocator.temporaryBlockPosition :: a :: held.map Prod.fst := List.mem_cons_self
  have hne : a ≠ arena.allocator.temporaryBlockPosition := fun heq =>
    (List.nodup_cons.mp hlaid.nodup).1 (heq ▸ List.mem_cons_self)
  have hnext : nextOf arena.heap.bytes arena.allocator.temporaryBlockPosition
      ∈ arena.allocator.temporaryBlockPosition :: a :: held.map Prod.fst := by
    rw [h.next_sentinel]
    rcases List.mem_cons.mp (headD_mem (held.map Prod.fst)) with heq | hmem
    · rw [heq]
      exact List.mem_cons_self
    · exact List.mem_cons_of_mem _ (List.mem_cons_of_mem _ hmem)
  have hlinked := nextOf_linked (hlaid.fits _ hsmem) (hlaid.fits a hamem) (hlaid.lt a hamem)
    (hlaid.lt _ hnext) (hlaid.spaced a hamem _ hsmem) hne
  exact MemBlock.insertAt_eq (hlaid.fits _ hsmem) h.sentinel.2.2 (hlaid.fits a hamem)
    (by rw [hlinked]; exact hlaid.fits _ hnext)

/-- The other blocks keep their stamps and their units when one is put on the ring. -/
theorem stamps_collected {units : Nat} (h : Gluing arena free held ((a, 12 * units) :: rest))
    (hpos : 0 < units) (hblock : block ∈ held) :
    word 2 (collected arena.heap.bytes arena.allocator.temporaryBlockPosition a units) block.1
        = 0xffff ∧
      word 2 (collected arena.heap.bytes arena.allocator.temporaryBlockPosition a units)
        (block.1 + 2) = block.2 := by
  have hlaid := h.laid_hand hpos
  have hamem : a ∈ arena.allocator.temporaryBlockPosition :: a :: held.map Prod.fst :=
    List.mem_cons_of_mem _ List.mem_cons_self
  have hmem : block.1 ∈ arena.allocator.temporaryBlockPosition :: a :: held.map Prod.fst :=
    List.mem_cons_of_mem _ (List.mem_cons_of_mem _ (List.mem_map_of_mem hblock))
  have hne : block.1 ≠ a := fun heq => (List.nodup_cons.mp (List.nodup_cons.mp hlaid.nodup).2).1
    (heq ▸ List.mem_map_of_mem hblock)
  have hapart := (hlaid.spaced block.1 hmem a hamem).resolve_left hne
  have hkept : ∀ x, block.1 ≤ x → x < block.1 + 4 →
      get (collected arena.heap.bytes arena.allocator.temporaryBlockPosition a units) x
        = get arena.heap.bytes x := by
    intro x hle hlt
    refine get_collected_of_far h.ring hlaid (fun c hc => ?_) (by omega)
    rcases hlaid.spaced block.1 hmem c hc with heq | hapart'
    · omega
    · omega
  obtain ⟨hstamp, hunits⟩ := h.stamps block hblock
  refine ⟨?_, ?_⟩
  · rw [← hstamp]
    exact word_congr fun x hle hlt => hkept x hle (by omega)
  · rw [← hunits]
    exact word_congr fun x hle hlt => hkept x (by omega) (by omega)

/-- A byte of no block of the ring stays when a block is put on it. -/
theorem get_collected_of_not {units : Nat} (h : Gluing arena free held ((a, 12 * units) :: rest))
    (hpos : 0 < units) {x : Nat} (hx : x < arena.allocator.temporaryBlockPosition)
    (hnot : ∀ block ∈ (a, units) :: held, ¬ In (heldBlock block) x) :
    get (collected arena.heap.bytes arena.allocator.temporaryBlockPosition a units) x
      = get arena.heap.bytes x := by
  have hout : x < a ∨ a + 12 ≤ x := by
    by_contra hin
    exact hnot (a, units) List.mem_cons_self ⟨by show a ≤ x; omega, by
      show x < a + 12 * units
      omega⟩
  refine get_collected_of_far h.ring (h.laid_hand hpos) (fun c hc => ?_) (by omega)
  rcases List.mem_cons.mp hc with rfl | hc
  · exact Or.inl (by omega)
  · rcases List.mem_cons.mp hc with rfl | hc
    · omega
    · obtain ⟨block, hblock, rfl⟩ := List.mem_map.mp hc
      by_contra hin
      exact hnot block (List.mem_cons_of_mem _ hblock)
        (in_held (h.units block hblock).1 (by omega) (by omega))

/-- A block in hand that is put on the ring. -/
theorem collect {units : Nat} (h : Gluing arena free held ((a, 12 * units) :: rest))
    (hpos : 0 < units) (hlt : units < 0x10000) :
    Gluing { arena with heap := ⟨collected arena.heap.bytes
        arena.allocator.temporaryBlockPosition a units⟩ } free ((a, units) :: held) rest ∧
      Keeps rest arena { arena with heap := ⟨collected arena.heap.bytes
        arena.allocator.temporaryBlockPosition a units⟩ } := by
  have hlists : Lists arena free (((a, units) :: held).map heldBlock ++ rest) :=
    h.lists.perm List.perm_middle
  have hchange := hlists.change_held length_collected fun x hx hnot =>
    h.get_collected_of_not hpos hx hnot
  have hfits := (h.laid_hand hpos).fits a (List.mem_cons_of_mem _ List.mem_cons_self)
  refine ⟨⟨hchange.1, ?_, fun block hblock => ?_, fun block hblock => ?_⟩, hchange.2⟩
  · dsimp only
    exact ring_collected h.ring (h.laid_hand hpos)
  · dsimp only
    rcases List.mem_cons.mp hblock with heq | hblock
    · rw [heq]
      exact stamp_collected hfits hlt
    · exact h.stamps_collected hpos hblock
  · rcases List.mem_cons.mp hblock with heq | hblock
    · rw [heq]
      exact ⟨hpos, hlt⟩
    · exact h.units block hblock

/-- The first word of a block of the ring is no link. -/
theorem head_apart {bytes : Bytes} {nodes : List Nat} (hlaid : Laid bytes nodes) {c d x : Nat}
    (hc : c ∈ nodes) (hd : d ∈ nodes) (hle : d ≤ x) (hlt : x < d + 4) : x < c + 4 ∨ c + 12 ≤ x := by
  rcases hlaid.spaced d hd c hc with heq | hapart
  · omega
  · omega

/-- A word of the first four bytes of a block stays when those bytes do. -/
theorem head_congr {bytes bytes' : Bytes} {c : Nat}
    (h : ∀ x, c ≤ x → x < c + 4 → get bytes' x = get bytes x) :
    word 2 bytes' c = word 2 bytes c ∧ word 2 bytes' (c + 2) = word 2 bytes (c + 2) :=
  ⟨word_congr fun x hle hlt => h x hle (by omega),
    word_congr fun x hle hlt => h x (by omega) (by omega)⟩

section remove

variable {before after : List (Nat × Nat)} {c units : Nat}

/-- The nodes of a ring with a block named. -/
theorem ring_split (h : Gluing arena free (before ++ (c, units) :: after) rest) :
    Ring arena.heap.bytes arena.allocator.temporaryBlockPosition
        (before.map Prod.fst ++ c :: after.map Prod.fst) ∧
      Laid arena.heap.bytes (arena.allocator.temporaryBlockPosition ::
        (before.map Prod.fst ++ c :: after.map Prod.fst)) := by
  have hring := h.ring
  have hlaid := h.laid
  rw [List.map_append, List.map_cons] at hring hlaid
  exact ⟨hring, hlaid⟩

theorem remove_eq (h : Gluing arena free (before ++ (c, units) :: after) rest) :
    MemBlock.remove c arena.heap = .ok ((), ⟨unlink arena.heap.bytes c⟩) := by
  obtain ⟨hring, hlaid⟩ := h.ring_split
  obtain ⟨left, p, n, right, hleft, hright, hp, hn, -, -⟩ := hring.neighbours
  have hpmem : p ∈ arena.allocator.temporaryBlockPosition ::
      (before.map Prod.fst ++ c :: after.map Prod.fst) := by
    have hmem : p ∈ arena.allocator.temporaryBlockPosition :: before.map Prod.fst :=
      hleft ▸ List.mem_append_right _ (List.mem_singleton_self p)
    rcases List.mem_cons.mp hmem with heq | hmem
    · rw [heq]
      exact List.mem_cons_self
    · exact List.mem_cons_of_mem _ (List.mem_append_left _ hmem)
  have hnmem : n ∈ arena.allocator.temporaryBlockPosition ::
      (before.map Prod.fst ++ c :: after.map Prod.fst) := by
    have hmem : n ∈ after.map Prod.fst ++ [arena.allocator.temporaryBlockPosition] :=
      hright ▸ List.mem_cons_self
    rcases List.mem_append.mp hmem with hmem | hmem
    · exact List.mem_cons_of_mem _ (List.mem_append_right _ (List.mem_cons_of_mem _ hmem))
    · rw [List.mem_singleton.mp hmem]
      exact List.mem_cons_self
  have hcmem : c ∈ arena.allocator.temporaryBlockPosition ::
      (before.map Prod.fst ++ c :: after.map Prod.fst) :=
    List.mem_cons_of_mem _ (List.mem_append_right _ List.mem_cons_self)
  exact MemBlock.remove_eq (hlaid.fits c hcmem) h.sentinel.2.2 (by rw [hp]; exact hlaid.fits p hpmem)
    (by rw [hn]; exact hlaid.fits n hnmem)

/-- Only the links of the blocks that stay and of the sentinel change. -/
theorem get_unlink (h : Gluing arena free (before ++ (c, units) :: after) rest) {x : Nat}
    (hx : ∀ d ∈ arena.allocator.temporaryBlockPosition :: (before ++ after).map Prod.fst,
      x < d + 4 ∨ d + 12 ≤ x) :
    get (unlink arena.heap.bytes c) x = get arena.heap.bytes x := by
  obtain ⟨hring, hlaid⟩ := h.ring_split
  rw [List.map_append] at hx
  exact hring.get_unlink hlaid hx

/-- The first word of every block stays. -/
theorem head_unlink (h : Gluing arena free (before ++ (c, units) :: after) rest) {d : Nat}
    (hd : d ∈ (before ++ (c, units) :: after).map Prod.fst) :
    word 2 (unlink arena.heap.bytes c) d = word 2 arena.heap.bytes d ∧
      word 2 (unlink arena.heap.bytes c) (d + 2) = word 2 arena.heap.bytes (d + 2) := by
  refine head_congr fun x hle hlt => h.get_unlink fun e he => ?_
  refine head_apart h.laid ?_ (List.mem_cons_of_mem _ hd) hle hlt
  rcases List.mem_cons.mp he with heq | he
  · rw [heq]
    exact List.mem_cons_self
  · obtain ⟨block, hblock, hfst⟩ := List.mem_map.mp he
    refine List.mem_cons_of_mem _ (List.mem_map.mpr ⟨block, ?_, hfst⟩)
    rcases List.mem_append.mp hblock with hblock | hblock
    · exact List.mem_append_left _ hblock
    · exact List.mem_append_right _ (List.mem_cons_of_mem _ hblock)

/-- A block is taken out of the ring. -/
theorem remove (h : Gluing arena free (before ++ (c, units) :: after) rest) :
    Gluing { arena with heap := ⟨unlink arena.heap.bytes c⟩ } free (before ++ after)
        ((c, 12 * units) :: rest) ∧
      Keeps rest arena { arena with heap := ⟨unlink arena.heap.bytes c⟩ } := by
  obtain ⟨hring, hlaid⟩ := h.ring_split
  have hlists : Lists arena free ((before ++ after).map heldBlock ++ (c, 12 * units) :: rest) := by
    refine h.lists.perm ?_
    have hperm : ((before ++ (c, units) :: after).map heldBlock).Perm
        (heldBlock (c, units) :: (before ++ after).map heldBlock) := List.perm_middle.map heldBlock
    exact (hperm.append_right rest).trans List.perm_middle.symm
  have hsub : ∀ block ∈ before ++ after, block ∈ before ++ (c, units) :: after := by
    intro block hblock
    rcases List.mem_append.mp hblock with hblock | hblock
    · exact List.mem_append_left _ hblock
    · exact List.mem_append_right _ (List.mem_cons_of_mem _ hblock)
  have hchange := hlists.change_held length_unlink fun x hx hnot => by
    refine h.get_unlink fun d hd => ?_
    rcases List.mem_cons.mp hd with heq | hd
    · exact Or.inl (by omega)
    · obtain ⟨block, hblock, hfst⟩ := List.mem_map.mp hd
      by_contra hin
      exact hnot block hblock (in_held (h.units block (hsub block hblock)).1 (by omega) (by omega))
  refine ⟨⟨hchange.1, ?_, fun block hblock => ?_, fun block hblock => h.units block (hsub block hblock)⟩,
    hchange.2.of_cons⟩
  · dsimp only
    rw [List.map_append]
    exact hring.unlink hlaid
  · dsimp only
    obtain ⟨hstamp, hunits⟩ := h.head_unlink (List.mem_map_of_mem (hsub block hblock))
    rw [hstamp, hunits]
    exact h.stamps block (hsub block hblock)

end remove

theorem mem_middle {α : Type} {x y : α} {left right : List α} :
    x ∈ left ++ y :: right ↔ x = y ∨ x ∈ left ++ right := by
  rw [List.mem_append, List.mem_cons, List.mem_append]
  exact or_left_comm

section grow

variable {before after : List (Nat × Nat)} {b units more : Nat}

/-- Two blocks, one behind the other, cover what one block of their units does. -/
theorem covers_grow (x : Nat) : covers [(b, 12 * (units + more))] x
    = covers [(b, 12 * units), (b + 12 * units, 12 * more)] x := by
  rw [Nat.mul_add]
  exact covers_cut b (12 * units) (12 * more) x

/-- Another block of the ring is elsewhere. -/
theorem other_apart (h : Gluing arena free (before ++ (b, units) :: after) rest)
    (hblock : block ∈ before ++ after) : block.1 + 12 ≤ b ∨ b + 12 ≤ block.1 := by
  have hlaid := h.laid
  have hmem : block.1 ∈ (before ++ (b, units) :: after).map Prod.fst :=
    List.mem_map_of_mem (mem_middle.mpr (Or.inr hblock))
  have hbmem : b ∈ (before ++ (b, units) :: after).map Prod.fst :=
    List.mem_map.mpr ⟨(b, units), mem_middle.mpr (Or.inl rfl), rfl⟩
  refine (hlaid.spaced block.1 (List.mem_cons_of_mem _ hmem) b
    (List.mem_cons_of_mem _ hbmem)).resolve_left fun heq => ?_
  have hnodup := (List.nodup_cons.mp hlaid.nodup).2
  rw [List.map_append, List.map_cons] at hnodup
  refine (List.nodup_cons.mp (List.perm_middle.nodup_iff.mp hnodup)).1 ?_
  rw [← List.map_append]
  exact List.mem_map.mpr ⟨block, hblock, heq⟩

/-- A block of the ring grows by the one in hand, which is right behind it. -/
theorem grow (h : Gluing arena free (before ++ (b, units) :: after)
      ((b + 12 * units, 12 * more) :: rest)) (hlt : units + more < 0x10000) :
    MemBlock.setUnits b (units + more) arena.heap
        = .ok ((), ⟨putWord 2 arena.heap.bytes (b + 2) (units + more)⟩) ∧
      Gluing { arena with heap := ⟨putWord 2 arena.heap.bytes (b + 2) (units + more)⟩ } free
        (before ++ (b, units + more) :: after) rest ∧
      Keeps rest arena { arena with heap := ⟨putWord 2 arena.heap.bytes (b + 2) (units + more)⟩ } := by
  obtain ⟨hring, hlaid⟩ := h.ring_split
  have hbmem : b ∈ arena.allocator.temporaryBlockPosition ::
      (before.map Prod.fst ++ b :: after.map Prod.fst) :=
    List.mem_cons_of_mem _ (List.mem_append_right _ List.mem_cons_self)
  have hfits := hlaid.fits b hbmem
  have hpos := (h.units (b, units) (List.mem_append_right _ List.mem_cons_self)).1
  have hfar : ∀ x, x < b + 2 ∨ b + 4 ≤ x →
      get (putWord 2 arena.heap.bytes (b + 2) (units + more)) x = get arena.heap.bytes x :=
    fun x hx => get_putWord_of_apart (by omega) (by omega)
  -- The rest of the tiling is as it was.
  have hlists : Lists arena free
      ((before ++ (b, units + more) :: after).map heldBlock ++ rest) := by
    have hmiddle : ((before ++ (b, units) :: after).map heldBlock ++
        (b + 12 * units, 12 * more) :: rest).Perm
        ((b, 12 * units) :: (b + 12 * units, 12 * more) ::
          ((before ++ after).map heldBlock ++ rest)) := by
      have hperm : ((before ++ (b, units) :: after).map heldBlock).Perm
          (heldBlock (b, units) :: (before ++ after).map heldBlock) := List.perm_middle.map heldBlock
      exact (hperm.append_right _).trans (List.Perm.cons _ List.perm_middle)
    have hmiddle' : ((before ++ (b, units + more) :: after).map heldBlock ++ rest).Perm
        ((b, 12 * (units + more)) :: ((before ++ after).map heldBlock ++ rest)) := by
      have hperm : ((before ++ (b, units + more) :: after).map heldBlock).Perm
          (heldBlock (b, units + more) :: (before ++ after).map heldBlock) :=
        List.perm_middle.map heldBlock
      exact hperm.append_right _
    refine h.lists.recut fun x => ?_
    have hcut := @covers_grow b units more x
    rw [covers_perm hmiddle, covers_perm hmiddle', covers_cons, covers_cons, covers_cons]
    rw [covers_cons, covers_cons, covers_cons, covers_nil] at hcut
    omega
  have hchange := hlists.change_held length_putWord fun x hx hnot => by
    refine hfar x ?_
    by_contra hin
    exact hnot (b, units + more) (List.mem_append_right _ List.mem_cons_self)
      (in_held (show 0 < units + more by omega) (show b ≤ x by omega) (show x < b + 12 by omega))
  refine ⟨MemBlock.setUnits_eq hfits h.sentinel.2.2 hlt, ⟨hchange.1, ?_, fun block hblock => ?_,
    fun block hblock => ?_⟩, hchange.2⟩
  · dsimp only
    rw [List.map_append, List.map_cons]
    refine hring.congr fun d hd x hle hx => hfar x ?_
    rcases hlaid.spaced d hd b hbmem with heq | hapart
    · omega
    · omega
  · dsimp only
    rcases mem_middle.mp hblock with heq | hblock
    · rw [heq]
      refine ⟨?_, word_putWord (by omega) hlt⟩
      rw [word_putWord_of_apart (by omega) (by omega)]
      exact (h.stamps (b, units) (mem_middle.mpr (Or.inl rfl))).1
    · have hmem : block ∈ before ++ (b, units) :: after := mem_middle.mpr (Or.inr hblock)
      have hapart := h.other_apart hblock
      obtain ⟨hstamp, hunits⟩ := @head_congr _ _ block.1 fun x hle hx => hfar x (by omega)
      rw [hstamp, hunits]
      exact h.stamps block hmem
  · rcases mem_middle.mp hblock with heq | hblock
    · rw [heq]
      exact ⟨Nat.lt_of_lt_of_le hpos (Nat.le_add_right _ _), hlt⟩
    · exact h.units block (mem_middle.mpr (Or.inr hblock))

end grow

end Gluing

end Ppmd

end Un7z
