/-
Programs that go along.

One program simulates another when, from related states, it returns whatever the other returns
and ends in a related state.  Nothing is said of where the other one fails.  The two may be over
states of different types: a source that hands out what is known beforehand, and one that has to
find it.  The rules are those of the text they share, so a simulation of the parts where they
differ carries over to everything built from them.
-/
import Un7z.Lib.Metered

/-- Whatever the one program returns, the other returns from a related state, and the states they
end in are related. -/
def Simulates {κ C ε σ τ α : Type} [AddMonoid C] [Purse κ C ε] (R : σ → τ → Prop)
    (m : StateT σ (Metered κ C ε) α) (n : StateT τ (Metered κ C ε) α) : Prop :=
  ∀ s t, R s t → ∀ a s', (m s).result = .ok (a, s') → ∃ t', (n t).result = .ok (a, t') ∧ R s' t'

namespace Simulates

variable {κ C ε σ τ α β : Type} [AddMonoid C] [Purse κ C ε] {R : σ → τ → Prop}
  {m : StateT σ (Metered κ C ε) α} {n : StateT τ (Metered κ C ε) α}
  {f : α → StateT σ (Metered κ C ε) β} {g : α → StateT τ (Metered κ C ε) β}

theorem pure (a : α) : Simulates R (Pure.pure a : StateT σ (Metered κ C ε) α) (Pure.pure a) := by
  intro s t hst b s' h
  cases h
  exact ⟨t, rfl, hst⟩

/-- The rule of sequencing. -/
theorem bind (h : Simulates R m n) (hf : ∀ a, Simulates R (f a) (g a)) :
    Simulates R (m >>= f) (n >>= g) := by
  intro s t hst b s'' hresult
  obtain ⟨⟨a, s'⟩, hm, hrest⟩ := Metered.bind_eq_ok.mp hresult
  obtain ⟨t', hn, hst'⟩ := h s t hst a s' hm
  obtain ⟨t'', hg, hst''⟩ := hf a s' t' hst' b s'' hrest
  exact ⟨t'', Metered.bind_eq_ok.mpr ⟨(a, t'), hn, hg⟩, hst''⟩

/-- A computation without the state. -/
theorem lift (c : Metered κ C ε α) :
    Simulates R (liftM c : StateT σ (Metered κ C ε) α) (liftM c) := by
  intro s t hst a s' hresult
  obtain ⟨b, hc, hrest⟩ := Metered.bind_eq_ok.mp hresult
  cases hrest
  exact ⟨t, Metered.bind_eq_ok.mpr ⟨a, hc, rfl⟩, hst⟩

theorem lift_bind {c : Metered κ C ε α} (hf : ∀ a, Simulates R (f a) (g a)) :
    Simulates R (liftM c >>= f) (liftM c >>= g) := (lift c).bind hf

theorem ite {c : Prop} [Decidable c] {m' : StateT σ (Metered κ C ε) α}
    {n' : StateT τ (Metered κ C ε) α} (h : Simulates R m n) (h' : Simulates R m' n') :
    Simulates R (if c then m else m') (if c then n else n') := by
  by_cases hc : c
  · rw [if_pos hc, if_pos hc]
    exact h
  · rw [if_neg hc, if_neg hc]
    exact h'

end Simulates
