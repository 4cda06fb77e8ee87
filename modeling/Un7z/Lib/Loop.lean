/-
Loops that go round until a round returns.

A loop is given by its round: from the state at the top, a round either leaves the state
for the next one or returns.  `Visits` are the states at the top of the rounds of a run,
under a control that may stop any of them, and `Returns` says in which round a run ends
and with what.  `Visits.invariant` is the rule for what holds at the top of every round,
and `Unrolls.returns` connects a loop to a computation that satisfies its equation: when
the invariant bounds the number of rounds, the computation is the run of the loop.
-/
import Un7z.Lib.Session

namespace Loop

variable {κ C ε σ α : Type} [AddMonoid C] [Purse κ C ε]

/-- Round `n` of a run from `s` under `k` starts in the state `t` with the control `k'`. -/
inductive Visits (round : σ → Metered κ C ε (σ ⊕ α)) (s : σ) (k : κ) : Nat → σ → κ → Prop
  | start : Visits round s k 0 s k
  | next {n : Nat} {t u : σ} {k' k'' : κ} (h : Visits round s k n t k')
      (hround : (round t).run k' = (.ok (.inl u), k'')) : Visits round s k (n + 1) u k''

/-- The outcome of a last round. -/
def Ends (m : Metered κ C ε (σ ⊕ α)) (k : κ) (out : Except ε α × κ) : Prop :=
  (∃ a k', m.run k = (.ok (.inr a), k') ∧ out = (.ok a, k')) ∨
    ∃ e k', m.run k = (.error e, k') ∧ out = (.error e, k')

/-- Round `n` is the last one, and the run ends with `out`. -/
def Returns (round : σ → Metered κ C ε (σ ⊕ α)) (s : σ) (k : κ) (n : Nat)
    (out : Except ε α × κ) : Prop :=
  ∃ t k', Visits round s k n t k' ∧ Ends (round t) k' out

variable {round : σ → Metered κ C ε (σ ⊕ α)} {s : σ} {k : κ} {Inv : Nat → σ → Prop}

/-- What every run of a round preserves holds at the top of every round. -/
theorem Visits.invariant_of_run {P : σ → Prop} {n : Nat} {t : σ} {k' : κ}
    (h : Visits round s k n t k') (hstart : P s)
    (hround : ∀ t u k k', P t → (round t).run k = (.ok (.inl u), k') → P u) : P t := by
  induction h with
  | start => exact hstart
  | next _ hrun ih => exact hround _ _ _ _ ih hrun

/-- What a round preserves holds at the top of every round. -/
theorem Visits.invariant {n : Nat} {t : σ} {k' : κ} (h : Visits round s k n t k')
    (hstart : Inv 0 s)
    (hround : ∀ n t u, Inv n t → (round t).result = .ok (.inl u) → Inv (n + 1) u) : Inv n t := by
  induction h with
  | start => exact hstart
  | next _ hrun ih => exact hround _ _ _ ih (Metered.result_of_run_ok hrun).1

/-- A family of computations satisfies the equation of the loop, wherever `Inv` holds. -/
def Unrolls (round : σ → Metered κ C ε (σ ⊕ α)) (Inv : Nat → σ → Prop)
    (m : σ → Metered κ C ε α) : Prop :=
  ∀ n t, Inv n t → m t = round t >>= Sum.elim m pure

/-- The rest of a run, from the top of round `n` on. -/
theorem Unrolls.returns_from {m : σ → Metered κ C ε α} {bound : Nat} (h : Unrolls round Inv m)
    (hround : ∀ n t u, Inv n t → (round t).result = .ok (.inl u) → Inv (n + 1) u)
    (hbound : ∀ n t, Inv n t → n ≤ bound) (left : Nat) :
    ∀ {n : Nat} {t : σ} {k' : κ}, n + left = bound → Inv n t → Visits round s k n t k' →
      ∃ n ≤ bound, Returns round s k n ((m t).run k') := by
  induction left with
  | zero =>
      intro n t k' hn ht hvisits
      refine ⟨n, by omega, t, k', hvisits, ?_⟩
      rw [h n t ht, Metered.run_bind]
      rcases hrun : (round t).run k' with ⟨_ | _ | a, k''⟩
      · exact Or.inr ⟨_, _, hrun, rfl⟩
      · -- one more round would be one too many
        have hnext := hbound _ _ (hround _ _ _ ht (Metered.result_of_run_ok hrun).1)
        omega
      · exact Or.inl ⟨a, _, hrun, rfl⟩
  | succ left ih =>
      intro n t k' hn ht hvisits
      rw [h n t ht, Metered.run_bind]
      rcases hrun : (round t).run k' with ⟨_ | u | a, k''⟩
      · exact ⟨n, by omega, t, k', hvisits, Or.inr ⟨_, _, hrun, rfl⟩⟩
      · exact ih (by omega) (hround _ _ _ ht (Metered.result_of_run_ok hrun).1)
          (hvisits.next hrun)
      · exact ⟨n, by omega, t, k', hvisits, Or.inl ⟨a, _, hrun, rfl⟩⟩

/-- With a bound on the rounds, the computation is the run of the loop. -/
theorem Unrolls.returns {m : σ → Metered κ C ε α} {bound : Nat} (h : Unrolls round Inv m)
    (hstart : Inv 0 s)
    (hround : ∀ n t u, Inv n t → (round t).result = .ok (.inl u) → Inv (n + 1) u)
    (hbound : ∀ n t, Inv n t → n ≤ bound) (k : κ) :
    ∃ n ≤ bound, Returns round s k n ((m s).run k) :=
  h.returns_from hround hbound bound (Nat.zero_add _) hstart .start

/--
A loop that is written with fuel, and in which every round but the last lowers a measure.

With more fuel than the measure of the state at the top, it is the run of the loop.
-/
theorem returns_of_fuel (m : Nat → σ → Metered κ C ε α) (P : σ → Prop) (measure : σ → Nat)
    (hunroll : ∀ fuel t, m (fuel + 1) t = round t >>= Sum.elim (m fuel) pure)
    (hround : ∀ t u k k', P t → (round t).run k = (.ok (.inl u), k') →
      P u ∧ measure u < measure t) (fuel : Nat) :
    ∀ {n : Nat} {t : σ} {k' : κ}, P t → measure t < fuel → Visits round s k n t k' →
      ∃ n, Returns round s k n ((m fuel t).run k') := by
  induction fuel with
  | zero =>
      intro n t k' _ hfuel
      exact absurd hfuel (Nat.not_lt_zero _)
  | succ fuel ih =>
      intro n t k' ht hfuel hvisits
      rw [hunroll fuel t, Metered.run_bind]
      rcases hrun : (round t).run k' with ⟨_ | u | a, k''⟩
      · exact ⟨n, t, k', hvisits, Or.inr ⟨_, _, hrun, rfl⟩⟩
      · obtain ⟨hu, hlt⟩ := hround _ _ _ _ ht hrun
        exact ih hu (by omega) (hvisits.next hrun)
      · exact ⟨n, t, k', hvisits, Or.inl ⟨a, _, hrun, rfl⟩⟩

end Loop

namespace Session

variable {κ C ε σ τ α : Type} [AddMonoid C] [Purse κ C ε]

/-- A round that is a session, on the state of the loop and the state of the session. -/
def asRound (round : τ → Session κ C ε σ (τ ⊕ α)) (t : τ × σ) :
    Metered κ C (ε × σ) ((τ × σ) ⊕ (α × σ)) :=
  (fun out => out.1.map (·, out.2) (·, out.2)) <$> round t.1 t.2

theorem asRound_bind (round : τ → Session κ C ε σ (τ ⊕ α)) (t : τ × σ)
    {m : τ × σ → Metered κ C (ε × σ) (α × σ)} :
    asRound round t >>= Sum.elim m pure =
      round t.1 t.2 >>= fun out => out.1.elim (fun t' => m (t', out.2)) (fun a => pure (a, out.2)) := by
  rw [asRound, bind_map_left]
  congr 1
  funext out
  rcases out with ⟨_ | _, _⟩ <;> rfl

/-- A round of the loop is a run of the session, with the state next to what it returns. -/
theorem asRound_run_inl {round : τ → Session κ C ε σ (τ ⊕ α)} {t u : τ × σ} {k k' : κ}
    (h : (asRound round t).run k = (.ok (.inl u), k')) :
    (round t.1).run t.2 k = (.ok (.inl u.1), u.2) := by
  have hmap : asRound round t
      = (round t.1 t.2 >>= fun out => pure (out.1.map (·, out.2) (·, out.2))) :=
    map_eq_pure_bind _ _
  rw [hmap, Metered.run_bind] at h
  rw [Session.run]
  rcases hrun : (round t.1 t.2).run k with ⟨_ | ⟨_ | _, _⟩, _⟩
  · rw [hrun] at h
    exact absurd (congrArg Prod.fst h) (by simp [Metered.runAfter])
  · rw [hrun] at h
    obtain rfl := Sum.inl.inj (Except.ok.inj (congrArg Prod.fst h))
    rfl
  · rw [hrun] at h
    exact absurd (congrArg Prod.fst h) (by simp [Metered.runAfter])

theorem asRound_run_error {round : τ → Session κ C ε σ (τ ⊕ α)} {t : τ × σ} {s : σ} {k k' : κ}
    {e : ε} (h : (asRound round t).run k = (.error (e, s), k')) :
    (round t.1).run t.2 k = (.error e, s) := by
  have hmap : asRound round t
      = (round t.1 t.2 >>= fun out => pure (out.1.map (·, out.2) (·, out.2))) :=
    map_eq_pure_bind _ _
  rw [hmap, Metered.run_bind] at h
  rw [Session.run]
  rcases hrun : (round t.1 t.2).run k with ⟨_ | ⟨_ | _, _⟩, _⟩
  · rw [hrun] at h
    obtain rfl := Except.error.inj (congrArg Prod.fst h)
    rfl
  · rw [hrun] at h
    exact absurd (congrArg Prod.fst h) (by simp [Metered.runAfter])
  · rw [hrun] at h
    exact absurd (congrArg Prod.fst h) (by simp [Metered.runAfter])

end Session
