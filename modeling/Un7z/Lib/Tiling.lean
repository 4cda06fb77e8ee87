/-
Ranges laid end to end, and ranges checked for overlap.

`tile start lengths` is what a running offset produces: one range for each length,
each beginning where the one before it ended.  Such ranges stay in order, stay
disjoint, and cover exactly the stretch from the start to the final offset.

The other half is about a check: a list of nonempty ranges in which no range starts
before its predecessor ends is pairwise disjoint, although the check compares
neighbours only.
-/
import Mathlib.Algebra.Order.Group.Nat
import Mathlib.Algebra.BigOperators.Fin
import Mathlib.Order.CompletePartialOrder
import Mathlib.Order.Interval.Set.LinearOrder
import Mathlib.Order.Interval.Set.Disjoint
import Mathlib.Data.Set.Function
import Mathlib.Data.Set.Lattice

namespace Tiling

variable {α : Type}

/-- `a` has ended when `b` starts. -/
def Before [LE α] (a b : α × α) : Prop := a.2 ≤ b.1

/-- The points of a range. -/
def points [Preorder α] (r : α × α) : Set α := Set.Ico r.1 r.2

theorem disjoint_of_before [LinearOrder α] {a b : α × α} (h : Before a b) :
    Disjoint (points a) (points b) := by
  rw [Set.disjoint_left]
  intro x hxa hxb
  exact absurd (lt_of_lt_of_le hxa.2 (le_trans h hxb.1)) (lt_irrefl x)

/-- Comparing neighbours is enough: the ends of ordered ranges are ordered too. -/
theorem pairwise_before_of_isChain [Preorder α] {ranges : List (α × α)}
    (hle : ∀ r ∈ ranges, r.1 ≤ r.2) (h : ranges.IsChain Before) :
    ranges.Pairwise Before := by
  induction ranges with
  | nil => exact List.Pairwise.nil
  | cons a rest ih =>
      have hrest : rest.Pairwise Before :=
        ih (fun r hr => hle r (List.mem_cons_of_mem _ hr)) h.of_cons
      refine List.Pairwise.cons (fun b hb => ?_) hrest
      cases rest with
      | nil => exact absurd hb (List.not_mem_nil)
      | cons c rest' =>
          have hac : Before a c := h.rel
          rcases List.mem_cons.mp hb with rfl | hb'
          · exact hac
          · have hcb : Before c b := (List.pairwise_cons.mp hrest).1 b hb'
            exact le_trans hac (le_trans (hle c (by simp)) hcb)

/-- A list without overlap between neighbours, and every rearrangement of it, is disjoint. -/
theorem pairwise_disjoint_of_perm [LinearOrder α] {ranges sorted : List (α × α)}
    (hperm : sorted.Perm ranges) (hle : ∀ r ∈ ranges, r.1 ≤ r.2) (h : sorted.IsChain Before) :
    ranges.Pairwise fun a b => Disjoint (points a) (points b) := by
  have hsorted : sorted.Pairwise Before :=
    pairwise_before_of_isChain (fun r hr => hle r (hperm.mem_iff.mp hr)) h
  exact (hsorted.imp disjoint_of_before).perm hperm fun hab => hab.symm

/-! ### Tiles -/

section tile

variable [AddCommMonoid α]

/-- The ranges that start at `start` and follow one another, of these lengths. -/
def tile (start : α) : List α → List (α × α)
  | [] => []
  | length :: lengths => (start, start + length) :: tile (start + length) lengths

@[simp] theorem tile_nil (start : α) : tile start [] = [] := rfl

@[simp] theorem tile_cons (start length : α) (lengths : List α) :
    tile start (length :: lengths) = (start, start + length) :: tile (start + length) lengths :=
  rfl

@[simp] theorem length_tile (lengths : List α) :
    ∀ start : α, (tile start lengths).length = lengths.length := by
  induction lengths with
  | nil => intro start; rfl
  | cons length lengths ih => intro start; simp [ih]

/-- Tile number `i` starts after all the tiles before it. -/
theorem getElem?_tile (lengths : List α) : ∀ (start : α) (i : Nat) (n : α),
    lengths[i]? = some n →
      (tile start lengths)[i]?
        = some (start + (lengths.take i).sum, start + (lengths.take i).sum + n) := by
  induction lengths with
  | nil => intro start i n h; exact absurd h (by simp)
  | cons length lengths ih =>
      intro start i n h
      cases i with
      | zero =>
          have hn : length = n := by simpa using h
          simp [hn]
      | succ i =>
          have hn : lengths[i]? = some n := by simpa using h
          simp only [tile_cons, List.getElem?_cons_succ, ih _ i n hn, List.take_succ_cons,
            List.sum_cons, add_assoc]

variable [LinearOrder α] [CanonicallyOrderedAdd α]

/-- Every tile lies between the start and the final offset. -/
theorem mem_tile (lengths : List α) : ∀ (start : α) (r : α × α), r ∈ tile start lengths →
    start ≤ r.1 ∧ r.1 ≤ r.2 ∧ r.2 ≤ start + lengths.sum := by
  induction lengths with
  | nil => intro start r h; exact absurd h (by simp)
  | cons length lengths ih =>
      intro start r h
      rw [List.sum_cons, ← add_assoc]
      rcases List.mem_cons.mp h with rfl | h
      · exact ⟨le_refl _, le_self_add, le_self_add⟩
      · obtain ⟨hlo, hmid, hhi⟩ := ih (start + length) r h
        exact ⟨le_trans le_self_add hlo, hmid, hhi⟩

/-- Tiles are in order. -/
theorem pairwise_tile (lengths : List α) :
    ∀ start : α, (tile start lengths).Pairwise Before := by
  induction lengths with
  | nil => intro start; exact List.Pairwise.nil
  | cons length lengths ih =>
      intro start
      exact List.Pairwise.cons (fun r hr => (mem_tile lengths _ r hr).1) (ih _)

/-- Tiles leave no gap. -/
theorem iUnion_tile (lengths : List α) : ∀ start : α,
    ⋃ r ∈ tile start lengths, points r = Set.Ico start (start + lengths.sum) := by
  induction lengths with
  | nil => intro start; simp
  | cons length lengths ih =>
      intro start
      have hunion : ⋃ r ∈ tile start (length :: lengths), points r
          = Set.Ico start (start + length) ∪ ⋃ r ∈ tile (start + length) lengths, points r := by
        simp [Set.iUnion_or, Set.iUnion_union_distrib, points]
      rw [hunion, ih, List.sum_cons, ← add_assoc]
      exact Set.Ico_union_Ico_eq_Ico le_self_add le_self_add

end tile

/-- Pieces that are the tiles of a list make up the list. -/
theorem flatten_of_tile {β : Type} (pieces : List (List β)) : ∀ {whole : List β},
    (∀ (j : ℕ) (piece : List β), pieces[j]? = some piece →
      piece = (whole.drop ((pieces.map List.length).take j).sum).take piece.length) →
    (pieces.map List.length).sum = whole.length → pieces.flatten = whole := by
  induction pieces with
  | nil =>
      intro whole _ hsum
      exact (List.eq_nil_of_length_eq_zero hsum.symm).symm
  | cons piece pieces ih =>
      intro whole hpieces hsum
      rw [List.map_cons, List.sum_cons] at hsum
      have hfirst : piece = whole.take piece.length := by simpa using hpieces 0 piece rfl
      have hrest : pieces.flatten = whole.drop piece.length := by
        refine ih (fun j piece' hpiece' => ?_) ?_
        · rw [List.drop_drop]
          have hnext := hpieces (j + 1) piece' hpiece'
          rwa [List.map_cons, List.take_succ_cons, List.sum_cons] at hnext
        · rw [List.length_drop]
          omega
      rw [List.flatten_cons, hrest]
      exact (congrArg (· ++ _) hfirst).trans (List.take_append_drop _ _)

/-! ### Owners -/

/-- The number of the tile that each position lies in, tile by tile. -/
def owners : ℕ → List ℕ → List ℕ
  | _, [] => []
  | first, length :: lengths => List.replicate length first ++ owners (first + 1) lengths

@[simp] theorem length_owners (lengths : List ℕ) :
    ∀ first : ℕ, (owners first lengths).length = lengths.sum := by
  induction lengths with
  | nil => intro first; rfl
  | cons length lengths ih => intro first; simp [owners, ih]

/-- A position is owned by the tile it lies in, and by no other. -/
theorem getElem?_owners (lengths : List ℕ) : ∀ (first start p j : ℕ),
    (owners first lengths)[p]? = some j ↔
      ∃ i r, j = first + i ∧ (tile start lengths)[i]? = some r ∧ start + p ∈ points r := by
  induction lengths with
  | nil => intro first start p j; simp [owners]
  | cons length lengths ih =>
      intro first start p j
      rw [owners, tile_cons]
      by_cases hp : p < length
      · rw [List.getElem?_append_left (by simpa using hp), List.getElem?_replicate, if_pos hp]
        constructor
        · intro h
          exact ⟨0, _, by simpa using h.symm, rfl, Nat.le_add_right _ _, by simpa using hp⟩
        · rintro ⟨i, r, rfl, hr, hmem⟩
          cases i with
          | zero => rfl
          | succ i =>
              have hlo := (mem_tile lengths _ r (List.mem_of_getElem? hr)).1
              have := hmem.1
              omega
      · rw [List.getElem?_append_right (by simpa using hp), List.length_replicate,
          ih (first + 1) (start + length)]
        have hpos : start + length + (p - length) = start + p := by omega
        rw [hpos]
        constructor
        · rintro ⟨i, r, rfl, hr, hmem⟩
          exact ⟨i + 1, r, by omega, hr, hmem⟩
        · rintro ⟨i, r, rfl, hr, hmem⟩
          cases i with
          | zero =>
              obtain rfl : (start, start + length) = r := by simpa using hr
              have : start + p < start + length := hmem.2
              omega
          | succ i => exact ⟨i, r, by omega, hr, hmem⟩

/-! ### Positions inside tiles -/

/-- A sum over the first `i` of a list, as a sum over indices. -/
theorem sum_take_map {β : Type} (f : β → ℕ) (items : List β) : ∀ {i : ℕ} (hi : i ≤ items.length),
    ((items.map f).take i).sum = ∑ j : Fin i, f (items.get ⟨j, lt_of_lt_of_le j.2 hi⟩) := by
  intro i
  induction i with
  | zero => intro hi; simp
  | succ i ih =>
      intro hi
      have hlt : i < items.length := hi
      rw [List.sum_take_succ _ _ (by simpa using hlt), ih (le_of_lt hlt), Fin.sum_univ_castSucc]
      simp

/--
Number the positions of consecutive tiles through: position `k` of tile `i` is
`f i + k`.  Every number below the total is one position.
-/
theorem bijOn_positions {m total : ℕ} {n f : Fin m → ℕ}
    (hfirst : ∀ i, f i = ∑ j : Fin i, n (Fin.castLE i.2.le j)) (htotal : total = ∑ i, n i) :
    Set.BijOn (fun x : (i : Fin m) × Fin (n i) => f x.1 + x.2) Set.univ (Set.Iio total) := by
  have happly : ∀ x : (i : Fin m) × Fin (n i), f x.1 + x.2 = (finSigmaFinEquiv x : ℕ) := by
    intro x
    rw [finSigmaFinEquiv_apply, hfirst]
  refine ⟨fun x _ => ?_, fun x _ y _ hxy => ?_, fun p hp => ?_⟩
  · show f x.1 + x.2 < total
    rw [happly, htotal]
    exact (finSigmaFinEquiv x).isLt
  · have hval : (finSigmaFinEquiv x : ℕ) = finSigmaFinEquiv y := by
      rw [← happly, ← happly]
      exact hxy
    exact finSigmaFinEquiv.injective (Fin.val_injective hval)
  · have hlt : p < ∑ i, n i := htotal ▸ hp
    refine ⟨finSigmaFinEquiv.symm ⟨p, hlt⟩, Set.mem_univ _, ?_⟩
    simp only [happly, Equiv.apply_symm_apply]

end Tiling
