/-
What a computation returns, and at what price.

A computation that succeeds has asked for the sum of what its parts ask for, so value and
price are followed together, part by part.
-/
import Un7z.Lib.Metered

namespace Metered

variable {κ C ε α β : Type} [AddMonoid C] [Purse κ C ε]

/-- The computation returns this value, and asks for this much. -/
structure Returns (m : Metered κ C ε α) (a : α) (price : C) : Prop where
  result : m.result = .ok a
  cost : m.cost = price

namespace Returns

variable {m : Metered κ C ε α} {f : α → Metered κ C ε β} {a : α} {b : β} {price more : C}

theorem pure (a : α) : Returns (Pure.pure a : Metered κ C ε α) a 0 := ⟨rfl, rfl⟩

/-- The rule of sequencing. -/
theorem bind (h : Returns m a price) (hf : Returns (f a) b more) : Returns (m >>= f) b (price + more) where
  result := (Metered.result_bind_ok h.result).trans hf.result
  cost := by
    rw [cost_bind, h.cost, h.result]
    exact congrArg (price + ·) hf.cost

/-- A part that asks for nothing. -/
theorem bind_free (h : Returns m a 0) (hf : Returns (f a) b more) : Returns (m >>= f) b more := by
  have hboth := h.bind hf
  rwa [zero_add] at hboth

/-- A last part that asks for nothing. -/
theorem bind_pure (h : Returns m a price) (hf : Returns (f a) b 0) : Returns (m >>= f) b price := by
  have hboth := h.bind hf
  rwa [add_zero] at hboth

theorem of_free (hfree : m.trace = []) (h : m.result = .ok a) : Returns m a 0 :=
  ⟨h, by rw [Metered.cost, hfree, List.sum_nil]⟩

end Returns

/-- A part that asks for nothing, followed by one that does not when it is reached. -/
theorem trace_bind_of_reached {m : Metered κ C ε α} {f : α → Metered κ C ε β} (hm : m.trace = [])
    (hf : ∀ a, m.result = .ok a → (f a).trace = []) : (m >>= f).trace = [] := by
  rw [trace_bind, hm, List.nil_append]
  cases hresult : m.result with
  | ok a => exact hf a hresult
  | error e => rfl

end Metered
