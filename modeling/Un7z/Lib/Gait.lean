/-
Walks over a list that rewrite it as they go.

A walk takes a stride at a time: it decides how much of what lies ahead the next stride
takes, rewrites that part, and goes on behind it.  The length of a stride may depend on
elements that the stride does not take and that a later one rewrites.  A gait is `Steady`
when that does no harm, that is, when what a walk leaves behind makes it take the strides
it took.  Such a walk is undone by any walk in step with it that undoes each stride, and
it is a bijection when each of its strides can be undone.
-/
import Mathlib.Data.Set.Finite.List

/-- How a walk goes on. -/
structure Gait (σ α : Type) where
  /-- How much of what lies ahead the next stride takes. -/
  cut : σ → List α → Nat
  /-- What a stride makes of what it takes. -/
  act : σ → List α → List α
  next : σ → List α → σ

namespace Gait

variable {σ α : Type} (G : Gait σ α)

/-- The walk goes on: the next stride takes something, and there is as much as it takes. -/
def Strides (s : σ) (rest : List α) : Prop := 0 < G.cut s rest ∧ G.cut s rest ≤ rest.length

instance (s : σ) (rest : List α) : Decidable (G.Strides s rest) :=
  inferInstanceAs (Decidable (_ ∧ _))

/-- What the next stride takes. -/
def front (s : σ) (rest : List α) : List α := rest.take (G.cut s rest)

/-- What lies behind the next stride. -/
def behind (s : σ) (rest : List α) : List α := rest.drop (G.cut s rest)

/-- The state behind the next stride. -/
def after (s : σ) (rest : List α) : σ := G.next s (G.front s rest)

variable {G}

theorem length_behind_lt {s : σ} {rest : List α} (h : G.Strides s rest) :
    (G.behind s rest).length < rest.length := by
  have hpos := h.1
  have hle := h.2
  rw [behind, List.length_drop]
  omega

variable (G)

/-- What a walk makes of what lies ahead. -/
def walk (s : σ) (rest : List α) : List α :=
  if h : G.Strides s rest then
    have := length_behind_lt h
    G.act s (G.front s rest) ++ walk (G.after s rest) (G.behind s rest)
  else
    rest
termination_by rest.length

/-- The strides of a walk: each with its state and what it takes. -/
def fronts (s : σ) (rest : List α) : List (σ × List α) :=
  if h : G.Strides s rest then
    have := length_behind_lt h
    (s, G.front s rest) :: fronts (G.after s rest) (G.behind s rest)
  else
    []
termination_by rest.length

/-- A walk over what it leaves behind takes the same strides. -/
structure Steady : Prop where
  length_act : ∀ {s rest}, G.Strides s rest → (G.act s (G.front s rest)).length = G.cut s rest
  cut_walk : ∀ s rest, G.cut s (G.walk s rest) = G.cut s rest
  next_act : ∀ {s rest}, G.Strides s rest → G.next s (G.act s (G.front s rest)) = G.after s rest

variable {G} {s : σ} {rest : List α}

theorem walk_of_strides (h : G.Strides s rest) :
    G.walk s rest = G.act s (G.front s rest) ++ G.walk (G.after s rest) (G.behind s rest) := by
  rw [walk, dif_pos h]

theorem walk_of_not (h : ¬ G.Strides s rest) : G.walk s rest = rest := by
  rw [walk, dif_neg h]

theorem fronts_of_strides (h : G.Strides s rest) :
    G.fronts s rest = (s, G.front s rest) :: G.fronts (G.after s rest) (G.behind s rest) := by
  rw [fronts, dif_pos h]

theorem fronts_of_not (h : ¬ G.Strides s rest) : G.fronts s rest = [] := by
  rw [fronts, dif_neg h]

theorem front_append_behind : G.front s rest ++ G.behind s rest = rest := List.take_append_drop _ _

theorem length_front (h : G.Strides s rest) : (G.front s rest).length = G.cut s rest := by
  rw [front, List.length_take, Nat.min_eq_left h.2]

/-- A walk over something that is taken whole, and what lies behind it. -/
theorem walk_append {front rest : List α} (hpos : 0 < front.length)
    (hcut : G.cut s (front ++ rest) = front.length) :
    G.walk s (front ++ rest) = G.act s front ++ G.walk (G.next s front) rest := by
  have hstrides : G.Strides s (front ++ rest) := by
    rw [Strides, hcut, List.length_append]
    omega
  have hfront : G.front s (front ++ rest) = front := by rw [Gait.front, hcut, List.take_left]
  have hbehind : G.behind s (front ++ rest) = rest := by rw [behind, hcut, List.drop_left]
  rw [walk_of_strides hstrides, after, hfront, hbehind]

/-- The induction over the strides of a walk. -/
theorem stride_induction {P : σ → List α → Prop}
    (stop : ∀ s rest, ¬ G.Strides s rest → P s rest)
    (stride : ∀ s rest, G.Strides s rest → P (G.after s rest) (G.behind s rest) → P s rest) :
    ∀ s rest, P s rest := by
  intro s rest
  induction hn : rest.length using Nat.strong_induction_on generalizing s rest with
  | _ n ih =>
      by_cases h : G.Strides s rest
      · exact stride s rest h (ih _ (hn ▸ length_behind_lt h) _ _ rfl)
      · exact stop s rest h

theorem length_walk (hact : ∀ {s rest}, G.Strides s rest →
    (G.act s (G.front s rest)).length = G.cut s rest) (s : σ) (rest : List α) :
    (G.walk s rest).length = rest.length := by
  induction s, rest using stride_induction (G := G) with
  | stop s rest h => rw [walk_of_not h]
  | stride s rest h ih =>
      rw [walk_of_strides h, List.length_append, ih, hact h, ← length_front h,
        ← List.length_append, front_append_behind]

/-- Which strides a walk takes is not a matter of what it makes of them. -/
theorem fronts_congr {H : Gait σ α} (hcut : H.cut = G.cut) (hnext : H.next = G.next) (s : σ)
    (rest : List α) : H.fronts s rest = G.fronts s rest := by
  have hstrides (s : σ) (rest : List α) : H.Strides s rest ↔ G.Strides s rest := by
    rw [Strides, Strides, hcut]
  induction s, rest using stride_induction (G := G) with
  | stop s rest h => rw [fronts_of_not h, fronts_of_not (mt (hstrides s rest).mp h)]
  | stride s rest h ih =>
      have hfront : H.front s rest = G.front s rest := by rw [front, front, hcut]
      have hbehind : H.behind s rest = G.behind s rest := by rw [behind, behind, hcut]
      have hafter : H.after s rest = G.after s rest := by rw [after, after, hfront, hnext]
      rw [fronts_of_strides h, fronts_of_strides ((hstrides s rest).mpr h), hfront, hbehind, hafter,
        ih]

namespace Steady

variable (hG : G.Steady)

include hG

theorem strides_walk : G.Strides s (G.walk s rest) ↔ G.Strides s rest := by
  rw [Strides, hG.cut_walk, length_walk hG.length_act, Strides]

/-- The next stride over what a walk left behind takes what the stride there made. -/
theorem front_walk (h : G.Strides s rest) :
    G.front s (G.walk s rest) = G.act s (G.front s rest) := by
  rw [front, hG.cut_walk, walk_of_strides h, List.take_left' (hG.length_act h)]

theorem behind_walk (h : G.Strides s rest) :
    G.behind s (G.walk s rest) = G.walk (G.after s rest) (G.behind s rest) := by
  rw [behind, hG.cut_walk, walk_of_strides h, List.drop_left' (hG.length_act h)]

theorem after_walk (h : G.Strides s rest) : G.after s (G.walk s rest) = G.after s rest := by
  rw [after, hG.front_walk h, hG.next_act h]

/-- Its strides take what the strides of the first walk made, in the same states. -/
theorem fronts_walk (s : σ) (rest : List α) :
    G.fronts s (G.walk s rest) = (G.fronts s rest).map fun p => (p.1, G.act p.1 p.2) := by
  induction s, rest using stride_induction (G := G) with
  | stop s rest h => rw [walk_of_not h, fronts_of_not h, List.map_nil]
  | stride s rest h ih =>
      rw [fronts_of_strides (hG.strides_walk.mpr h), hG.front_walk h, hG.behind_walk h,
        hG.after_walk h, ih, fronts_of_strides h, List.map_cons]

/-- A walk in step with a steady one that undoes its strides undoes the walk. -/
theorem walk_walk {H : Gait σ α} (hcut : H.cut = G.cut) (hnext : H.next = G.next)
    (hact : ∀ {s rest}, G.Strides s rest →
      H.act s (G.act s (G.front s rest)) = G.front s rest) (s : σ) (rest : List α) :
    H.walk s (G.walk s rest) = rest := by
  have hstrides (s : σ) (rest : List α) : H.Strides s rest ↔ G.Strides s rest := by
    rw [Strides, Strides, hcut]
  have hfront (s : σ) (rest : List α) : H.front s rest = G.front s rest := by
    rw [front, front, hcut]
  induction s, rest using stride_induction (G := G) with
  | stop s rest h => rw [walk_of_not h, walk_of_not (mt (hstrides s rest).mp h)]
  | stride s rest h ih =>
      have hagain := hG.strides_walk.mpr h
      have hafter : H.after s (G.walk s rest) = G.after s rest := by
        rw [after, hfront, hnext]
        exact hG.after_walk h
      have hbehind : H.behind s (G.walk s rest) = G.walk (G.after s rest) (G.behind s rest) := by
        rw [behind, hcut]
        exact hG.behind_walk h
      rw [walk_of_strides ((hstrides _ _).mpr hagain), hfront, hG.front_walk h, hact h, hafter,
        hbehind, ih, front_append_behind]

/-- A steady walk whose strides lose nothing loses nothing. -/
theorem walk_injective (hact : ∀ {s rest rest'}, G.Strides s rest → G.Strides s rest' →
    G.cut s rest = G.cut s rest' → G.act s (G.front s rest) = G.act s (G.front s rest') →
      G.front s rest = G.front s rest') (s : σ) : Function.Injective (G.walk s) := by
  intro rest rest' heq
  induction s, rest using stride_induction (G := G) generalizing rest' with
  | stop s rest h =>
      have h' : ¬ G.Strides s rest' := by rwa [← hG.strides_walk, ← heq, hG.strides_walk]
      rwa [walk_of_not h, walk_of_not h'] at heq
  | stride s rest h ih =>
      have h' : G.Strides s rest' := by rwa [← hG.strides_walk, ← heq, hG.strides_walk]
      have hcut : G.cut s rest = G.cut s rest' := by rw [← hG.cut_walk, heq, hG.cut_walk]
      rw [walk_of_strides h, walk_of_strides h'] at heq
      obtain ⟨hfront, hbehind⟩ := List.append_inj heq (by
        rw [hG.length_act h, hG.length_act h', hcut])
      have hsame := hact h h' hcut hfront
      have hafter : G.after s rest' = G.after s rest := by rw [after, after, hsame]
      rw [hafter] at hbehind
      calc rest = G.front s rest ++ G.behind s rest := front_append_behind.symm
        _ = G.front s rest' ++ G.behind s rest' := by rw [hsame, ih hbehind]
        _ = rest' := front_append_behind

/-- Then it is a bijection on the lists of any length. -/
theorem walk_bijOn [Finite α] (hinjective : Function.Injective (G.walk s)) (n : Nat) :
    Set.BijOn (G.walk s) {rest | rest.length = n} {rest | rest.length = n} := by
  have hmaps : Set.MapsTo (G.walk s) {rest | rest.length = n} {rest | rest.length = n} := by
    intro rest hn
    exact (length_walk hG.length_act s rest).trans hn
  exact ((List.finite_length_eq α n).injOn_iff_bijOn_of_mapsTo hmaps).mp hinjective.injOn

end Steady

end Gait
