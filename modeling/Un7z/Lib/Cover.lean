/-
Exact covers of an interval.

Blocks tile an interval when every number in it lies in exactly one of them and no number
outside lies in any.  Said by counting, this is stable under everything an allocator does:
the count of a list is a sum, so it does not matter in which order the blocks come, which
list they are in, or whether a block is cut in two.  What an allocator has to rely on is
read back off the count: two blocks do not overlap, and a block ends where another begins.
-/
import Mathlib.Data.List.Basic
import Mathlib.Data.List.Perm.Basic
import Mathlib.Data.List.Count
import Mathlib.Algebra.BigOperators.Group.List.Defs
import Mathlib.Algebra.BigOperators.Group.List.Basic
import Mathlib.Algebra.GroupWithZero.Nat

namespace Cover

/-- The number lies in the block, which has a start and a length. -/
def In (block : Nat × Nat) (x : Nat) : Prop := block.1 ≤ x ∧ x < block.1 + block.2

instance (block : Nat × Nat) (x : Nat) : Decidable (In block x) := inferInstanceAs (Decidable (_ ∧ _))

/-- How many of the blocks the number lies in. -/
def covers : List (Nat × Nat) → Nat → Nat
  | [], _ => 0
  | block :: blocks, x => (if In block x then 1 else 0) + covers blocks x

variable {blocks blocks' rest : List (Nat × Nat)} {block other : Nat × Nat} {lo hi x a m n : Nat}

@[simp] theorem covers_nil (x : Nat) : covers [] x = 0 := rfl

theorem covers_cons (block : Nat × Nat) (blocks : List (Nat × Nat)) (x : Nat) :
    covers (block :: blocks) x = (if In block x then 1 else 0) + covers blocks x := rfl

theorem covers_append (blocks blocks' : List (Nat × Nat)) (x : Nat) :
    covers (blocks ++ blocks') x = covers blocks x + covers blocks' x := by
  induction blocks with
  | nil => exact (Nat.zero_add _).symm
  | cons block blocks ih => rw [List.cons_append, covers_cons, covers_cons, ih, Nat.add_assoc]

theorem covers_perm (h : blocks.Perm blocks') (x : Nat) : covers blocks x = covers blocks' x := by
  induction h with
  | nil => rfl
  | cons block _ ih => rw [covers_cons, covers_cons, ih]
  | swap block block' blocks => simp only [covers_cons]; omega
  | trans _ _ ih ih' => exact ih.trans ih'

/-- A block cut in two covers what it did. -/
theorem covers_cut (a m n x : Nat) :
    covers [(a, m + n)] x = covers [(a, m), (a + m, n)] x := by
  have hwhole : In (a, m + n) x ↔ In (a, m) x ∨ In (a + m, n) x := by
    simp only [In]
    omega
  have hnot : ¬ (In (a, m) x ∧ In (a + m, n) x) := by
    simp only [In]
    omega
  simp only [covers_cons, covers_nil, hwhole]
  by_cases hfirst : In (a, m) x
  · have hlast : ¬ In (a + m, n) x := fun hlast => hnot ⟨hfirst, hlast⟩
    rw [if_pos (Or.inl hfirst), if_pos hfirst, if_neg hlast]
  · by_cases hlast : In (a + m, n) x
    · rw [if_pos (Or.inr hlast), if_neg hfirst, if_pos hlast]
    · rw [if_neg (not_or.mpr ⟨hfirst, hlast⟩), if_neg hfirst, if_neg hlast]

theorem covers_empty (a x : Nat) : covers [(a, 0)] x = 0 := by
  have hnot : ¬ In (a, 0) x := by
    simp only [In]
    omega
  rw [covers_cons, if_neg hnot, covers_nil]

theorem covers_pos (hmem : block ∈ blocks) (hx : In block x) : 0 < covers blocks x := by
  induction blocks with
  | nil => cases hmem
  | cons first blocks ih =>
      rw [covers_cons]
      rcases List.mem_cons.mp hmem with rfl | hmem
      · rw [if_pos hx]
        omega
      · have hrest := ih hmem
        omega

theorem exists_of_covers (h : 0 < covers blocks x) : ∃ block ∈ blocks, In block x := by
  induction blocks with
  | nil => cases h
  | cons first blocks ih =>
      by_cases hfirst : In first x
      · exact ⟨first, List.mem_cons_self, hfirst⟩
      · rw [covers_cons, if_neg hfirst, Nat.zero_add] at h
        obtain ⟨block, hmem, hx⟩ := ih h
        exact ⟨block, List.mem_cons_of_mem _ hmem, hx⟩

/-- Every number of the interval lies in one block, and no other number in any. -/
def Tiles (lo hi : Nat) (blocks : List (Nat × Nat)) : Prop :=
  ∀ x, covers blocks x = if lo ≤ x ∧ x < hi then 1 else 0

namespace Tiles

theorem congr (h : Tiles lo hi blocks) (hsame : ∀ x, covers blocks' x = covers blocks x) :
    Tiles lo hi blocks' := fun x => (hsame x).trans (h x)

theorem perm (h : Tiles lo hi blocks) (hperm : blocks.Perm blocks') : Tiles lo hi blocks' :=
  h.congr fun x => (covers_perm hperm x).symm

theorem covers_le (h : Tiles lo hi blocks) (x : Nat) : covers blocks x ≤ 1 := by
  rw [h x]
  split <;> omega

theorem bounds (h : Tiles lo hi blocks) (hmem : block ∈ blocks) (hx : In block x) :
    lo ≤ x ∧ x < hi := by
  have hpos := covers_pos hmem hx
  rw [h x] at hpos
  by_contra hout
  rw [if_neg hout] at hpos
  exact absurd hpos (Nat.lt_irrefl 0)

/-- A block that is not empty lies in the interval. -/
theorem block_bounds (h : Tiles lo hi blocks) (hmem : block ∈ blocks) (hpos : 0 < block.2) :
    lo ≤ block.1 ∧ block.1 + block.2 ≤ hi := by
  have hfirst := (h.bounds hmem (show In block block.1 from ⟨Nat.le_refl _, by omega⟩)).1
  have hlast := (h.bounds hmem (show In block (block.1 + block.2 - 1) from ⟨by omega, by omega⟩)).2
  exact ⟨hfirst, by omega⟩

/-- Two blocks do not overlap. -/
theorem apart (h : Tiles lo hi (block :: blocks)) (hmem : other ∈ blocks) (hx : In block x) :
    ¬ In other x := by
  intro hother
  have hle := h.covers_le x
  have hpos := covers_pos hmem hother
  rw [covers_cons, if_pos hx] at hle
  omega

/-- So one of them ends before the other begins. -/
theorem before_or_after (h : Tiles lo hi (block :: blocks)) (hmem : other ∈ blocks)
    (hblock : 0 < block.2) (hother : 0 < other.2) :
    block.1 + block.2 ≤ other.1 ∨ other.1 + other.2 ≤ block.1 := by
  by_contra hnot
  rw [not_or] at hnot
  rcases Nat.le_total block.1 other.1 with hle | hle
  · exact h.apart hmem (show In block other.1 from ⟨hle, by omega⟩) ⟨Nat.le_refl _, by omega⟩
  · exact h.apart hmem (show In block block.1 from ⟨Nat.le_refl _, by omega⟩) ⟨hle, by omega⟩

/-- Two different blocks, wherever they are in the list. -/
theorem before_or_after_of_ne (h : Tiles lo hi blocks) (hmem : block ∈ blocks)
    (hmem' : other ∈ blocks) (hne : block ≠ other) (hblock : 0 < block.2) (hother : 0 < other.2) :
    block.1 + block.2 ≤ other.1 ∨ other.1 + other.2 ≤ block.1 := by
  obtain ⟨left, right, rfl⟩ := List.append_of_mem hmem
  refine (h.perm List.perm_middle).before_or_after ?_ hblock hother
  rcases List.mem_append.mp hmem' with hmem' | hmem'
  · exact List.mem_append_left _ hmem'
  · exact List.mem_append_right _ ((List.mem_cons.mp hmem').resolve_left (Ne.symm hne))

/-- The interval may begin lower, with a block there. -/
theorem extend (h : Tiles lo hi blocks) (hle : n ≤ lo) (hlohi : lo ≤ hi) :
    Tiles (lo - n) hi ((lo - n, n) :: blocks) := by
  intro x
  rw [covers_cons, h x]
  by_cases hnew : In (lo - n, n) x
  · obtain ⟨hge, hlt⟩ := hnew
    dsimp only at hge hlt
    rw [if_pos ⟨hge, hlt⟩, if_neg (by omega), if_pos (by omega)]
  · rw [if_neg hnew, Nat.zero_add]
    rw [In, not_and_or] at hnew
    dsimp only at hnew
    by_cases hin : lo ≤ x ∧ x < hi
    · rw [if_pos hin, if_pos (by omega)]
    · rw [if_neg hin, if_neg (by omega)]

/-- A block that ends inside ends where another one begins. -/
theorem next (h : Tiles lo hi (block :: blocks)) (hpos : 0 < block.2)
    (hend : block.1 + block.2 < hi) :
    ∃ other ∈ blocks, other.1 = block.1 + block.2 ∧ 0 < other.2 := by
  have hlo := (h.block_bounds List.mem_cons_self hpos).1
  have hcovers := h (block.1 + block.2)
  rw [if_pos ⟨by omega, hend⟩, covers_cons, if_neg (show ¬ In block (block.1 + block.2) by
    rintro ⟨-, hlt⟩; omega), Nat.zero_add] at hcovers
  have hone : 0 < covers blocks (block.1 + block.2) := hcovers ▸ Nat.one_pos
  obtain ⟨other, hmem, hge, hlt⟩ := exists_of_covers hone
  refine ⟨other, hmem, ?_, by omega⟩
  -- If it began before, it would overlap the block.
  have hnot := h.apart hmem (show In block (block.1 + block.2 - 1) from ⟨by omega, by omega⟩)
  by_contra hne
  exact hnot ⟨by omega, by omega⟩

end Tiles

/-! ### Counting blocks -/

/-- The numbers below a bound, each counted as often as it is covered. -/
def weight (blocks : List (Nat × Nat)) (bound : Nat) : Nat :=
  ((List.range bound).map (covers blocks)).sum

theorem weight_succ (blocks : List (Nat × Nat)) (bound : Nat) :
    weight blocks (bound + 1) = weight blocks bound + covers blocks bound := by
  rw [weight, weight, List.range_succ, List.map_append, List.sum_append, List.map_singleton,
    List.sum_singleton]

theorem weight_cons (block : Nat × Nat) (blocks : List (Nat × Nat)) (bound : Nat) :
    weight (block :: blocks) bound = weight [block] bound + weight blocks bound := by
  induction bound with
  | zero => rfl
  | succ bound ih =>
      rw [weight_succ, weight_succ, weight_succ, ih, covers_cons, covers_cons, covers_nil]
      omega

/-- A block below the bound weighs its length. -/
theorem weight_single {block : Nat × Nat} {bound : Nat} :
    weight [block] bound = min bound (block.1 + block.2) - min bound block.1 := by
  induction bound with
  | zero => simp [weight]
  | succ bound ih =>
      rw [weight_succ, ih, covers_cons, covers_nil]
      by_cases hin : In block bound
      · rw [if_pos hin]
        obtain ⟨hge, hlt⟩ := hin
        omega
      · rw [if_neg hin]
        rw [In, not_and_or] at hin
        omega

/-- Blocks of at least some length that do not overlap are not too many. -/
theorem length_mul_le {k : Nat} (h : ∀ x, covers blocks x ≤ 1) (hk : ∀ block ∈ blocks, k ≤ block.2)
    (hbounds : ∀ block ∈ blocks, block.1 + block.2 ≤ hi) : blocks.length * k ≤ hi := by
  have hweight : ∀ bound, weight blocks bound ≤ bound := by
    intro bound
    induction bound with
    | zero => exact Nat.le_refl 0
    | succ bound ih =>
        rw [weight_succ]
        exact Nat.add_le_add ih (h bound)
  refine Nat.le_trans ?_ (hweight hi)
  clear hweight h
  induction blocks with
  | nil => rw [List.length_nil, Nat.zero_mul]; exact Nat.zero_le _
  | cons block blocks ih =>
      have hrest := ih (fun other hmem => hk other (List.mem_cons_of_mem _ hmem))
        fun other hmem => hbounds other (List.mem_cons_of_mem _ hmem)
      have hlength := hk block List.mem_cons_self
      have hbound := hbounds block List.mem_cons_self
      rw [weight_cons, weight_single, List.length_cons, Nat.succ_mul]
      omega

/-- Blocks that do not overlap begin at different places. -/
theorem nodup_starts (h : ∀ x, covers blocks x ≤ 1) (hpos : ∀ block ∈ blocks, 0 < block.2) :
    (blocks.map Prod.fst).Nodup := by
  induction blocks with
  | nil => exact List.nodup_nil
  | cons block blocks ih =>
      have hblock := hpos block List.mem_cons_self
      refine List.nodup_cons.mpr ⟨fun hmem => ?_, ih (fun x => ?_) fun other hother =>
        hpos other (List.mem_cons_of_mem _ hother)⟩
      · obtain ⟨other, hother, hsame⟩ := List.mem_map.mp hmem
        have hlen := hpos other (List.mem_cons_of_mem _ hother)
        have htwice := h block.1
        have hcovers := covers_pos hother (show In other block.1 from ⟨by omega, by omega⟩)
        rw [covers_cons, if_pos ⟨Nat.le_refl _, by omega⟩] at htwice
        omega
      · have hle := h x
        rw [covers_cons] at hle
        omega

/-- Blocks without a number in two of them lie one behind the other. -/
theorem pairwise_before_or_after (h : ∀ x, covers blocks x ≤ 1) (hpos : ∀ block ∈ blocks, 0 < block.2) :
    blocks.Pairwise fun block other =>
      block.1 + block.2 ≤ other.1 ∨ other.1 + other.2 ≤ block.1 := by
  induction blocks with
  | nil => exact List.Pairwise.nil
  | cons block blocks ih =>
      refine List.pairwise_cons.mpr ⟨fun other hother => ?_, ih (fun x => ?_) fun other hother =>
        hpos other (List.mem_cons_of_mem _ hother)⟩
      · by_contra hnot
        rw [not_or] at hnot
        have hblock := hpos block List.mem_cons_self
        have hlen := hpos other (List.mem_cons_of_mem _ hother)
        -- the later of the two starts would lie in both
        have htwice := h (max block.1 other.1)
        have hcovers := covers_pos hother (show In other (max block.1 other.1) from ⟨by omega, by omega⟩)
        rw [covers_cons, if_pos ⟨by omega, by omega⟩] at htwice
        omega
      · have hle := h x
        rw [covers_cons] at hle
        omega

end Cover
