/-
Lists that are threaded through the blocks of a memory.

A `Chain` starts at a cell that holds the address of the first block; each block holds in
its first word the address of the next one, and the last one holds zero.  A ring is linked
both ways: `Links` says of a sequence of blocks that each holds the address of the next one
behind its first word, and the next one that of the one before it behind that.  A ring is
such a sequence from a block back to itself.

A list depends on the words that link it and on nothing else, so it survives every change
of the memory elsewhere; the operations are what changes those words.
-/
import Un7z.Lib.ByteMemory

namespace LinkedBlocks

open ByteMemory

variable {m m' : List UInt8} {a b x : Nat} {blocks : List Nat}

/-! ### Chains -/

/-- From the cell `a` on, the blocks are linked in this order. -/
def Chain (m : List UInt8) : Nat → List Nat → Prop
  | a, [] => word 4 m a = 0
  | a, b :: blocks => word 4 m a = b ∧ b ≠ 0 ∧ Chain m b blocks

theorem Chain.congr (h : Chain m a blocks) (hsame : ∀ c ∈ a :: blocks, word 4 m' c = word 4 m c) :
    Chain m' a blocks := by
  induction blocks generalizing a with
  | nil => exact (hsame a List.mem_cons_self).trans h
  | cons b blocks ih =>
      exact ⟨(hsame a List.mem_cons_self).trans h.1, h.2.1,
        ih h.2.2 fun c hc => hsame c (List.mem_cons_of_mem _ hc)⟩

theorem Chain.ne_zero (h : Chain m a blocks) (hb : b ∈ blocks) : b ≠ 0 := by
  induction blocks generalizing a with
  | nil => cases hb
  | cons c blocks ih =>
      rcases List.mem_cons.mp hb with rfl | hb
      · exact h.2.1
      · exact ih h.2.2 hb

/-- The first word says whether there is a block. -/
theorem Chain.eq_nil_iff (h : Chain m a blocks) : word 4 m a = 0 ↔ blocks = [] := by
  cases blocks with
  | nil => exact ⟨fun _ => rfl, fun _ => h⟩
  | cons b blocks =>
      refine ⟨fun hzero => absurd (h.1.symm.trans hzero) h.2.1, fun hnil => by cases hnil⟩

/-- Two cells whose words do not overlap. -/
def Apart (a b : Nat) : Prop := a + 4 ≤ b ∨ b + 4 ≤ a

/-- The memory once a block is put before the first one. -/
def push (m : List UInt8) (a b : Nat) : List UInt8 := putWord 4 (putWord 4 m b (word 4 m a)) a b

@[simp] theorem length_push : (push m a b).length = m.length := by
  rw [push, length_putWord, length_putWord]

theorem get_push (ha : a + 4 ≤ m.length) (hb : b + 4 ≤ m.length) (hxa : x < a ∨ a + 4 ≤ x)
    (hxb : x < b ∨ b + 4 ≤ x) : get (push m a b) x = get m x := by
  rw [push, get_putWord_of_apart (by rw [length_putWord]; exact ha) hxa,
    get_putWord_of_apart hb hxb]

theorem word_push_of_apart (ha : a + 4 ≤ m.length) (hb : b + 4 ≤ m.length) {c : Nat}
    (hca : Apart c a) (hcb : Apart c b) : word 4 (push m a b) c = word 4 m c :=
  word_congr fun _ hle hlt => get_push ha hb (by unfold Apart at hca; omega)
    (by unfold Apart at hcb; omega)

theorem Chain.push (h : Chain m a blocks) (ha : a + 4 ≤ m.length) (hb : b + 4 ≤ m.length)
    (hpos : b ≠ 0) (hlt : b < 2 ^ 32) (hab : Apart a b) (hblocks : ∀ c ∈ blocks, Apart c a ∧ Apart c b) :
    Chain (LinkedBlocks.push m a b) a (b :: blocks) := by
  have hfit : a + 4 ≤ (putWord 4 m b (word 4 m a)).length := by rw [length_putWord]; exact ha
  have hfirst : word 4 (LinkedBlocks.push m a b) b = word 4 m a := by
    rw [LinkedBlocks.push, word_putWord_of_apart hfit (by unfold Apart at hab; omega),
      word_putWord hb (word_lt 4 m a)]
  refine ⟨word_putWord hfit hlt, hpos, ?_⟩
  cases blocks with
  | nil => exact hfirst.trans h
  | cons c blocks =>
      refine ⟨hfirst.trans h.1, h.2.1, h.2.2.congr fun d hd => ?_⟩
      exact word_push_of_apart ha hb (hblocks d hd).1 (hblocks d hd).2

/-- The memory once the first block is taken off. -/
def pop (m : List UInt8) (a b : Nat) : List UInt8 := putWord 4 m a (word 4 m b)

@[simp] theorem length_pop : (pop m a b).length = m.length := length_putWord

theorem get_pop (ha : a + 4 ≤ m.length) (hx : x < a ∨ a + 4 ≤ x) :
    get (pop m a b) x = get m x := get_putWord_of_apart ha hx

theorem Chain.pop (h : Chain m a (b :: blocks)) (ha : a + 4 ≤ m.length)
    (hblocks : ∀ c ∈ blocks, Apart c a) : Chain (LinkedBlocks.pop m a b) a blocks := by
  have hfirst : word 4 (LinkedBlocks.pop m a b) a = word 4 m b := word_putWord ha (word_lt 4 m b)
  obtain ⟨-, -, hrest⟩ := h
  cases blocks with
  | nil => exact hfirst.trans hrest
  | cons c blocks =>
      refine ⟨hfirst.trans hrest.1, hrest.2.1, hrest.2.2.congr fun d hd => ?_⟩
      exact word_putWord_of_apart ha (hblocks d hd)

/-! ### Rings -/

/-- The address behind the first word of a block. -/
def nextOf (m : List UInt8) (a : Nat) : Nat := word 4 m (a + 4)

/-- The address behind that. -/
def previousOf (m : List UInt8) (a : Nat) : Nat := word 4 m (a + 8)

/-- Blocks that are next to each other are linked both ways. -/
def Links (m : List UInt8) : List Nat → Prop
  | a :: b :: blocks => nextOf m a = b ∧ previousOf m b = a ∧ Links m (b :: blocks)
  | _ => True

/-- The blocks on the way from the block `a` back to itself. -/
def Ring (m : List UInt8) (a : Nat) (blocks : List Nat) : Prop := Links m (a :: (blocks ++ [a]))

theorem links_append {left right : List Nat} :
    Links m (left ++ a :: right) ↔ Links m (left ++ [a]) ∧ Links m (a :: right) := by
  induction left with
  | nil => exact ⟨fun h => ⟨trivial, h⟩, fun h => h.2⟩
  | cons x left ih =>
      cases left with
      | nil =>
          exact ⟨fun ⟨h, h', hrest⟩ => ⟨⟨h, h', trivial⟩, hrest⟩,
            fun ⟨⟨h, h', _⟩, hrest⟩ => ⟨h, h', hrest⟩⟩
      | cons y left =>
          simp only [List.cons_append] at ih ⊢
          exact ⟨fun ⟨h, h', hrest⟩ => ⟨⟨h, h', (ih.mp hrest).1⟩, (ih.mp hrest).2⟩,
            fun ⟨⟨h, h', hleft⟩, hright⟩ => ⟨h, h', ih.mpr ⟨hleft, hright⟩⟩⟩

/-- Links depend on the forward link of every block but the last, and on the backward link
of every block but the first. -/
theorem Links.congr (h : Links m blocks)
    (hnext : ∀ c ∈ blocks.dropLast, nextOf m' c = nextOf m c)
    (hprevious : ∀ c ∈ blocks.tail, previousOf m' c = previousOf m c) : Links m' blocks := by
  induction blocks with
  | nil => trivial
  | cons a blocks ih =>
      cases blocks with
      | nil => trivial
      | cons b blocks =>
          refine ⟨(hnext a List.mem_cons_self).trans h.1,
            (hprevious b List.mem_cons_self).trans h.2.1, ih h.2.2 (fun c hc => ?_) fun c hc => ?_⟩
          · exact hnext c (List.mem_cons_of_mem _ hc)
          · exact hprevious c (List.mem_cons_of_mem _ hc)

/-- A ring depends on the links of its blocks. -/
theorem Ring.congr {s : Nat} (h : Ring m s blocks)
    (hsame : ∀ c ∈ s :: blocks, ∀ x, c + 4 ≤ x → x < c + 12 → get m' x = get m x) :
    Ring m' s blocks := by
  have hmem : ∀ c ∈ s :: (blocks ++ [s]), c ∈ s :: blocks := by
    intro c hc
    rcases List.mem_cons.mp hc with rfl | hc
    · exact List.mem_cons_self
    · rcases List.mem_append.mp hc with hc | hc
      · exact List.mem_cons_of_mem _ hc
      · rw [List.mem_singleton.mp hc]
        exact List.mem_cons_self
  refine Links.congr h (fun c hc => ?_) fun c hc => ?_
  · have hc' := hmem c (List.dropLast_subset _ hc)
    exact word_congr fun x hle hlt => hsame c hc' x hle (by omega)
  · have hc' := hmem c (List.mem_of_mem_tail hc)
    exact word_congr fun x hle hlt => hsame c hc' x (by omega) (by omega)

/-- Two blocks that are one, or whose first twelve bytes do not overlap. -/
def Spaced (a b : Nat) : Prop := a = b ∨ a + 12 ≤ b ∨ b + 12 ≤ a

theorem Spaced.symm (h : Spaced a b) : Spaced b a := h.imp Eq.symm Or.symm

def setNext (m : List UInt8) (a value : Nat) : List UInt8 := putWord 4 m (a + 4) value

def setPrevious (m : List UInt8) (a value : Nat) : List UInt8 := putWord 4 m (a + 8) value

@[simp] theorem length_setNext {value : Nat} : (setNext m a value).length = m.length := length_putWord

@[simp] theorem length_setPrevious {value : Nat} : (setPrevious m a value).length = m.length :=
  length_putWord

variable {value : Nat}

theorem get_setNext (ha : a + 12 ≤ m.length) (hx : x < a + 4 ∨ a + 8 ≤ x) :
    get (setNext m a value) x = get m x := get_putWord_of_apart (by omega) (by omega)

theorem get_setPrevious (ha : a + 12 ≤ m.length) (hx : x < a + 8 ∨ a + 12 ≤ x) :
    get (setPrevious m a value) x = get m x := get_putWord_of_apart (by omega) (by omega)

theorem nextOf_setNext (ha : a + 12 ≤ m.length) (hvalue : value < 2 ^ 32) (h : Spaced b a) :
    nextOf (setNext m a value) b = if b = a then value else nextOf m b := by
  by_cases hba : b = a
  · rw [if_pos hba, hba]
    exact word_putWord (by omega) hvalue
  · rw [if_neg hba]
    have hapart := h.resolve_left hba
    exact word_putWord_of_apart (by omega) (by omega)

theorem previousOf_setNext (ha : a + 12 ≤ m.length) (h : Spaced b a) :
    previousOf (setNext m a value) b = previousOf m b := by
  refine word_putWord_of_apart (by omega) ?_
  rcases h with rfl | h <;> omega

theorem nextOf_setPrevious (ha : a + 12 ≤ m.length) (h : Spaced b a) :
    nextOf (setPrevious m a value) b = nextOf m b := by
  refine word_putWord_of_apart (by omega) ?_
  rcases h with rfl | h <;> omega

theorem previousOf_setPrevious (ha : a + 12 ≤ m.length) (hvalue : value < 2 ^ 32)
    (h : Spaced b a) :
    previousOf (setPrevious m a value) b = if b = a then value else previousOf m b := by
  by_cases hba : b = a
  · rw [if_pos hba, hba]
    exact word_putWord (by omega) hvalue
  · rw [if_neg hba]
    have hapart := h.resolve_left hba
    exact word_putWord_of_apart (by omega) (by omega)

/-- The blocks of a ring, which are in memory and do not overlap. -/
structure Laid (m : List UInt8) (nodes : List Nat) : Prop where
  nodup : nodes.Nodup
  spaced : ∀ c ∈ nodes, ∀ d ∈ nodes, Spaced c d
  fits : ∀ c ∈ nodes, c + 12 ≤ m.length
  lt : ∀ c ∈ nodes, c < 2 ^ 32

/-- The memory once a block is taken out of its ring. -/
def unlink (m : List UInt8) (b : Nat) : List UInt8 :=
  setPrevious (setNext m (previousOf m b) (nextOf m b)) (nextOf m b) (previousOf m b)

@[simp] theorem length_unlink : (unlink m b).length = m.length := by
  rw [unlink, length_setPrevious, length_setNext]

/-- The neighbours of a block. -/
theorem Ring.neighbours {s : Nat} {before after : List Nat}
    (h : Ring m s (before ++ b :: after)) :
    ∃ left p n right, s :: before = left ++ [p] ∧ after ++ [s] = n :: right ∧
      previousOf m b = p ∧ nextOf m b = n ∧
      Links m (left ++ [p]) ∧ Links m (n :: right) := by
  obtain ⟨left, p, hleft⟩ : ∃ left p, s :: before = left ++ [p] :=
    ⟨_, _, (List.dropLast_append_getLast (List.cons_ne_nil s before)).symm⟩
  obtain ⟨n, right, hright⟩ : ∃ n right, after ++ [s] = n :: right := by
    cases after with
    | nil => exact ⟨s, [], rfl⟩
    | cons n after => exact ⟨n, after ++ [s], rfl⟩
  have hlist : s :: (before ++ b :: after ++ [s]) = left ++ p :: b :: n :: right := by
    rw [List.append_assoc, List.cons_append, hright, ← List.cons_append, hleft, List.append_assoc]
    rfl
  rw [Ring, hlist, links_append] at h
  obtain ⟨hbefore, hpb, hbp, hbn, -, hafter⟩ := h
  exact ⟨left, p, n, right, hleft, hright, hbp, hbn, hbefore, hafter⟩

/-- What the links of a block are once another one is taken out. -/
theorem links_unlink {nodes : List Nat} (hlaid : Laid m nodes) {p n c : Nat} (hp : p ∈ nodes)
    (hn : n ∈ nodes) (hprevious : previousOf m b = p) (hnext : nextOf m b = n) (hc : c ∈ nodes) :
    nextOf (unlink m b) c = (if c = p then n else nextOf m c) ∧
      previousOf (unlink m b) c = (if c = n then p else previousOf m c) := by
  have hpfit := hlaid.fits p hp
  have hnfit : n + 12 ≤ (setNext m p n).length := by
    rw [length_setNext]
    exact hlaid.fits n hn
  have hcp := hlaid.spaced c hc p hp
  have hcn := hlaid.spaced c hc n hn
  rw [unlink, hprevious, hnext]
  refine ⟨?_, ?_⟩
  · rw [nextOf_setPrevious hnfit hcn, nextOf_setNext hpfit (hlaid.lt n hn) hcp]
  · rw [previousOf_setPrevious hnfit (hlaid.lt p hp) hcn, previousOf_setNext hpfit hcp]

/-- Taking a block out of a ring leaves the ring of the others. -/
theorem Ring.unlink {s : Nat} {before after : List Nat} (h : Ring m s (before ++ b :: after))
    (hlaid : Laid m (s :: (before ++ b :: after))) :
    Ring (LinkedBlocks.unlink m b) s (before ++ after) := by
  obtain ⟨left, p, n, right, hleft, hright, hp, hn, hbefore, hafter⟩ := h.neighbours
  have hnodup := hlaid.nodup
  have hbeforeMem : ∀ c ∈ before, c ∈ s :: (before ++ b :: after) := fun c hc =>
    List.mem_cons_of_mem _ (List.mem_append_left _ hc)
  have hafterMem : ∀ c ∈ after, c ∈ s :: (before ++ b :: after) := fun c hc =>
    List.mem_cons_of_mem _ (List.mem_append_right _ (List.mem_cons_of_mem _ hc))
  have hp' : p = s ∨ p ∈ before := by
    have hmem : p ∈ s :: before := hleft ▸ List.mem_append_right _ (List.mem_singleton_self p)
    exact List.mem_cons.mp hmem
  have hn' : n ∈ after ∨ n = s := by
    have hmem : n ∈ after ++ [s] := hright ▸ List.mem_cons_self
    exact (List.mem_append.mp hmem).imp id List.mem_singleton.mp
  have hpmem : p ∈ s :: (before ++ b :: after) := by
    rcases hp' with rfl | hp'
    · exact List.mem_cons_self
    · exact hbeforeMem p hp'
  have hnmem : n ∈ s :: (before ++ b :: after) := by
    rcases hn' with hn' | rfl
    · exact hafterMem n hn'
    · exact List.mem_cons_self
  have hlinks := fun c hc => @links_unlink m b _ hlaid p n c hpmem hnmem hp hn hc
  obtain ⟨hs, htail⟩ := List.nodup_cons.mp hnodup
  obtain ⟨-, hrest, hdisjoint⟩ := List.nodup_append.mp htail
  have hlast : (after ++ [s]).Nodup := by
    refine List.nodup_append.mpr ⟨(List.nodup_cons.mp hrest).2, List.nodup_cons.mpr ⟨List.not_mem_nil, List.nodup_nil⟩,
      ?_⟩
    rintro c hc d hd rfl
    rw [List.mem_singleton.mp hd] at hc
    exact hs (List.mem_append_right _ (List.mem_cons_of_mem _ hc))
  have hfirst : (s :: before).Nodup :=
    List.nodup_cons.mpr ⟨fun hc => hs (List.mem_append_left _ hc), (List.nodup_append.mp htail).1⟩
  -- A block before and a block after are not the same one.
  have hcross : ∀ c ∈ before, ∀ d ∈ after, c ≠ d := fun c hc d hd =>
    hdisjoint c hc d (List.mem_cons_of_mem _ hd)
  have hsbefore : s ∉ before := fun hc => hs (List.mem_append_left _ hc)
  have hsafter : s ∉ after := fun hc => hs (List.mem_append_right _ (List.mem_cons_of_mem _ hc))
  have hlist : s :: (before ++ after ++ [s]) = left ++ p :: n :: right := by
    rw [List.append_assoc, hright, ← List.cons_append, hleft, List.append_assoc]
    rfl
  rw [Ring, hlist, links_append]
  refine ⟨hbefore.congr (fun c hc => ?_) fun c hc => ?_, ?_, ?_,
    hafter.congr (fun c hc => ?_) fun c hc => ?_⟩
  · rw [List.dropLast_concat] at hc
    have hne : c ≠ p := by
      rintro rfl
      rw [hleft] at hfirst
      exact (List.nodup_append.mp hfirst).2.2 c hc c (List.mem_singleton_self c) rfl
    have hmem : c ∈ s :: before := hleft ▸ List.mem_append_left _ hc
    have hmem' : c ∈ s :: (before ++ b :: after) := by
      rcases List.mem_cons.mp hmem with rfl | hmem
      · exact List.mem_cons_self
      · exact hbeforeMem c hmem
    rw [(hlinks c hmem').1, if_neg hne]
  · rw [← hleft, List.tail_cons] at hc
    have hne : c ≠ n := by
      rintro rfl
      rcases hn' with hn' | rfl
      · exact hcross c hc c hn' rfl
      · exact hsbefore hc
    rw [(hlinks c (hbeforeMem c hc)).2, if_neg hne]
  · rw [(hlinks p hpmem).1, if_pos rfl]
  · rw [(hlinks n hnmem).2, if_pos rfl]
  · rw [← hright, List.dropLast_concat] at hc
    have hne : c ≠ p := by
      rintro rfl
      rcases hp' with rfl | hp'
      · exact hsafter hc
      · exact hcross c hp' c hc rfl
    rw [(hlinks c (hafterMem c hc)).1, if_neg hne]
  · rw [List.tail_cons] at hc
    have hne : c ≠ n := by
      rintro rfl
      rw [hright] at hlast
      exact (List.nodup_cons.mp hlast).1 hc
    have hmem : c ∈ after ++ [s] := hright ▸ List.mem_cons_of_mem _ hc
    have hmem' : c ∈ s :: (before ++ b :: after) := by
      rcases List.mem_append.mp hmem with hmem | hmem
      · exact hafterMem c hmem
      · rw [List.mem_singleton.mp hmem]
        exact List.mem_cons_self
    rw [(hlinks c hmem').2, if_neg hne]

/-- Nothing else changes than the links of the neighbours. -/
theorem Ring.get_unlink {s : Nat} {before after : List Nat} (h : Ring m s (before ++ b :: after))
    (hlaid : Laid m (s :: (before ++ b :: after)))
    (hx : ∀ c ∈ s :: (before ++ after), x < c + 4 ∨ c + 12 ≤ x) :
    get (LinkedBlocks.unlink m b) x = get m x := by
  obtain ⟨left, p, n, right, hleft, hright, hp, hn, -, -⟩ := h.neighbours
  have hpmem : p ∈ s :: (before ++ after) := by
    have hmem : p ∈ s :: before := hleft ▸ List.mem_append_right _ (List.mem_singleton_self p)
    rw [← List.cons_append]
    exact List.mem_append_left _ hmem
  have hnmem : n ∈ s :: (before ++ after) := by
    have hmem : n ∈ after ++ [s] := hright ▸ List.mem_cons_self
    rcases List.mem_append.mp hmem with hmem | hmem
    · exact List.mem_cons_of_mem _ (List.mem_append_right _ hmem)
    · rw [List.mem_singleton.mp hmem]
      exact List.mem_cons_self
  have hfits : ∀ c ∈ s :: (before ++ after), c + 12 ≤ m.length := by
    intro c hc
    refine hlaid.fits c ?_
    rcases List.mem_cons.mp hc with rfl | hc
    · exact List.mem_cons_self
    · refine List.mem_cons_of_mem _ ?_
      rcases List.mem_append.mp hc with hc | hc
      · exact List.mem_append_left _ hc
      · exact List.mem_append_right _ (List.mem_cons_of_mem _ hc)
  have hxp := hx p hpmem
  have hxn := hx n hnmem
  rw [LinkedBlocks.unlink, hp, hn,
    get_setPrevious (by rw [length_setNext]; exact hfits n hnmem) (by omega),
    get_setNext (hfits p hpmem) (by omega)]

/-- The memory once the forward links of a block and of the one it is put behind are written. -/
def linked (m : List UInt8) (s b : Nat) : List UInt8 :=
  setNext (setNext (setPrevious m b s) b (nextOf (setPrevious m b s) s)) s b

/-- The memory once a block is put behind another one. -/
def link (m : List UInt8) (s b : Nat) : List UInt8 :=
  setPrevious (linked m s b) (nextOf (linked m s b) b) b

@[simp] theorem length_linked {s : Nat} : (linked m s b).length = m.length := by
  rw [linked, length_setNext, length_setNext, length_setPrevious]

@[simp] theorem length_link {s : Nat} : (link m s b).length = m.length := by
  rw [link, length_setPrevious, length_linked]

/-- The block is linked to what the other one was linked to. -/
theorem nextOf_linked {s : Nat} (hs : s + 12 ≤ m.length) (hb : b + 12 ≤ m.length)
    (hlt : b < 2 ^ 32) (hnext : nextOf m s < 2 ^ 32) (hspaced : Spaced b s) (hbs : b ≠ s) :
    nextOf (linked m s b) b = nextOf m s := by
  have hlen : (setPrevious m b s).length = m.length := length_setPrevious
  have hfirst : nextOf (setPrevious m b s) s = nextOf m s := nextOf_setPrevious hb hspaced.symm
  rw [linked, nextOf_setNext (by rw [length_setNext, hlen]; exact hs) hlt hspaced, if_neg hbs,
    hfirst, nextOf_setNext (by rw [hlen]; exact hb) hnext (Or.inl rfl), if_pos rfl]

/-- What the links of a block are once another one is put in. -/
theorem links_link {s n c : Nat} {nodes : List Nat} (hlaid : Laid m nodes) (hs : s ∈ nodes)
    (hb : b ∈ nodes) (hn : n ∈ nodes) (hbs : b ≠ s) (hnext : nextOf m s = n) (hc : c ∈ nodes) :
    nextOf (link m s b) c = (if c = s then b else if c = b then n else nextOf m c) ∧
      previousOf (link m s b) c = (if c = n then b else if c = b then s else previousOf m c) ∧
      ∀ x, (∀ c ∈ nodes, x < c + 4 ∨ c + 12 ≤ x) → get (link m s b) x = get m x := by
  have hbfit := hlaid.fits b hb
  have hsfit := hlaid.fits s hs
  have hnfit := hlaid.fits n hn
  have hcs := hlaid.spaced c hc s hs
  have hcb := hlaid.spaced c hc b hb
  have hcn := hlaid.spaced c hc n hn
  have hnext' := @nextOf_linked m b s hsfit hbfit (hlaid.lt b hb) (hnext ▸ hlaid.lt n hn)
    (hlaid.spaced b hb s hs) hbs
  have hfirst : nextOf (setPrevious m b s) s = n := by
    rw [nextOf_setPrevious hbfit (hlaid.spaced s hs b hb), hnext]
  rw [link, hnext', hnext]
  have hlen : (linked m s b).length = m.length := length_linked
  refine ⟨?_, ?_, fun x hx => ?_⟩
  · rw [nextOf_setPrevious (by rw [hlen]; exact hnfit) hcn, linked, hfirst,
      nextOf_setNext (by rw [length_setNext, length_setPrevious]; exact hsfit) (hlaid.lt b hb) hcs,
      nextOf_setNext (by rw [length_setPrevious]; exact hbfit) (hlaid.lt n hn) hcb,
      nextOf_setPrevious hbfit hcb]
  · rw [previousOf_setPrevious (by rw [hlen]; exact hnfit) (hlaid.lt b hb) hcn, linked, hfirst,
      previousOf_setNext (by rw [length_setNext, length_setPrevious]; exact hsfit) hcs,
      previousOf_setNext (by rw [length_setPrevious]; exact hbfit) hcb,
      previousOf_setPrevious hbfit (hlaid.lt s hs) hcb]
  · have hxb := hx b hb
    have hxs := hx s hs
    have hxn := hx n hn
    rw [get_setPrevious (by rw [hlen]; exact hnfit) (by omega), linked, hfirst,
      get_setNext (by rw [length_setNext, length_setPrevious]; exact hsfit) (by omega),
      get_setNext (by rw [length_setPrevious]; exact hbfit) (by omega),
      get_setPrevious hbfit (by omega)]

/-- The first block behind the start of a ring. -/
theorem Ring.first {s : Nat} (h : Ring m s blocks) :
    ∃ n right, blocks ++ [s] = n :: right ∧ nextOf m s = n ∧ Links m (n :: right) := by
  cases blocks with
  | nil => exact ⟨s, [], rfl, h.1, h.2.2⟩
  | cons n blocks => exact ⟨n, blocks ++ [s], rfl, h.1, h.2.2⟩

/-- A block is put into a ring behind its start. -/
theorem Ring.link {s : Nat} (h : Ring m s blocks) (hlaid : Laid m (s :: b :: blocks)) :
    Ring (LinkedBlocks.link m s b) s (b :: blocks) ∧
      ∀ x, (∀ c ∈ s :: b :: blocks, x < c + 4 ∨ c + 12 ≤ x) →
        get (LinkedBlocks.link m s b) x = get m x := by
  obtain ⟨n, right, hright, hnext, hlinks⟩ := h.first
  obtain ⟨hs, hrest⟩ := List.nodup_cons.mp hlaid.nodup
  obtain ⟨hb, hnodup⟩ := List.nodup_cons.mp hrest
  have hbs : b ≠ s := fun heq => hs (heq ▸ List.mem_cons_self)
  have hsblocks : s ∉ blocks := fun hc => hs (List.mem_cons_of_mem _ hc)
  have hbmem : b ∈ s :: b :: blocks := List.mem_cons_of_mem _ List.mem_cons_self
  have hmem : ∀ c ∈ n :: right, c ∈ s :: b :: blocks := by
    intro c hc
    rw [← hright] at hc
    rcases List.mem_append.mp hc with hc | hc
    · exact List.mem_cons_of_mem _ (List.mem_cons_of_mem _ hc)
    · rw [List.mem_singleton.mp hc]
      exact List.mem_cons_self
  have hnotb : ∀ c ∈ n :: right, c ≠ b := by
    rintro c hc rfl
    rw [← hright] at hc
    rcases List.mem_append.mp hc with hc | hc
    · exact hb hc
    · exact hbs (List.mem_singleton.mp hc)
  have hlast : (n :: right).Nodup := by
    rw [← hright]
    refine List.nodup_append.mpr ⟨hnodup, List.nodup_cons.mpr ⟨List.not_mem_nil, List.nodup_nil⟩, ?_⟩
    rintro c hc d hd rfl
    rw [List.mem_singleton.mp hd] at hc
    exact hsblocks hc
  have hafter := fun c hc => @links_link m b s n c _ hlaid List.mem_cons_self hbmem
    (hmem n List.mem_cons_self) hbs hnext hc
  have hfirst := hafter s List.mem_cons_self
  refine ⟨?_, hfirst.2.2⟩
  have hlist : s :: (b :: blocks ++ [s]) = s :: b :: n :: right := by
    rw [List.cons_append, hright]
  rw [Ring, hlist]
  refine ⟨?_, ?_, ?_, ?_, hlinks.congr (fun c hc => ?_) fun c hc => ?_⟩
  · rw [hfirst.1, if_pos rfl]
  · rw [(hafter b hbmem).2.1, if_neg (Ne.symm (hnotb n List.mem_cons_self)), if_pos rfl]
  · rw [(hafter b hbmem).1, if_neg hbs, if_pos rfl]
  · rw [(hafter n (hmem n List.mem_cons_self)).2.1, if_pos rfl]
  · rw [← hright, List.dropLast_concat] at hc
    have hcmem : c ∈ n :: right := hright ▸ List.mem_append_left _ hc
    have hne : c ≠ s := fun heq => hsblocks (heq ▸ hc)
    rw [(hafter c (hmem c hcmem)).1, if_neg hne, if_neg (hnotb c hcmem)]
  · have hcmem : c ∈ n :: right := List.mem_cons_of_mem _ hc
    have hne : c ≠ n := fun heq => (List.nodup_cons.mp hlast).1 (heq ▸ hc)
    rw [(hafter c (hmem c hcmem)).2.1, if_neg hne, if_neg (hnotb c hcmem)]

end LinkedBlocks
