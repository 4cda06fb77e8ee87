/-
Copies from behind.

A history is extended by copies of what it already holds: so many tokens, each of them the
one at some distance before the end of what is there by then.  A copy may be longer than
its distance, and then it repeats itself.
-/
import Mathlib.Algebra.Group.Nat.Defs

namespace Lz77

variable {α : Type}

/-- The history with a copy behind it. -/
def copy (distance : Nat) : Nat → List α → List α
  | 0, history => history
  | count + 1, history =>
      copy distance count (history ++ (history[history.length - distance]?).toList)

variable {distance : Nat} {history : List α}

theorem toList_getElem? (hpos : 0 < distance) (h : distance ≤ history.length) :
    ∃ a, history[history.length - distance]? = some a :=
  ⟨_, List.getElem?_eq_getElem (by omega)⟩

/-- A copy from within the history is as long as it should be. -/
theorem length_copy (hpos : 0 < distance) (count : Nat) (h : distance ≤ history.length) :
    (copy distance count history).length = history.length + count := by
  induction count generalizing history with
  | zero => rfl
  | succ count ih =>
      obtain ⟨a, ha⟩ := toList_getElem? hpos h
      rw [copy, ha, Option.toList_some, ih (by rw [List.length_append]; omega), List.length_append,
        List.length_singleton]
      omega

/-- It keeps what is there. -/
theorem prefix_copy (distance count : Nat) (history : List α) :
    history <+: copy distance count history := by
  induction count generalizing history with
  | zero => exact List.prefix_rfl
  | succ count ih => exact (List.prefix_append _ _).trans (ih _)

end Lz77
