/-
A session behind another one.

A session that is interrupted, or whose environment fails, has come part of the way.
`Trails` says part of the way of what: what the first session returns, the second returns
too, and when the first ends in an error, under any control, its state lags behind the
state in which the second ends, however that ends.

States are in step as long as nothing has failed.  From then on the second session is on
its own, so what lags has to stay behind whatever it does.
-/
import Un7z.Lib.Session

namespace Session

variable {κ C ε σ τ α α' β β' : Type} [AddMonoid C] [Purse κ C ε]

/-! ### Runs -/

/-- What a run makes of a metered computation in front: its error, or its value and a control. -/
theorem run_lift_bind_cases (m : Metered κ C ε α) (f : α → Session κ C ε σ β) (s : σ) (k : κ) :
    (∃ e, ((liftM m : Session κ C ε σ α) >>= f).run s k = (.error e, s)) ∨
      ∃ a k', m.result = .ok a ∧ ((liftM m : Session κ C ε σ α) >>= f).run s k = (f a).run s k' := by
  rcases hm : m.run k with ⟨e | a, k'⟩
  · refine Or.inl ⟨e, @run_bind_error κ C ε σ α β _ _ _ _ _ _ _ k' _ ?_⟩
    show (carry s (m.run k).1, (m.run k).2) = _
    rw [hm]
    rfl
  · refine Or.inr ⟨a, k', (Metered.result_of_run_ok hm).1, ?_⟩
    rw [run, run_lift_bind hm]
    rfl

theorem result_of_run_ok {m : Session κ C ε σ α} {s s' : σ} {k : κ} {a : α}
    (h : m.run s k = (.ok a, s')) : m.result s = (.ok a, s') := by
  rcases m.run_cases s k with hrun | ⟨e, t, hrun, -⟩
  · rw [← hrun, h]
  · rw [hrun] at h
    cases (Prod.mk.inj h).1

theorem run_act_bind {f : σ → Except ε α × σ} {g : α → Session κ C ε σ β} {s s' : σ} {a : α} (k : κ)
    (h : f s = (.ok a, s')) : (act f >>= g).run s k = (g a).run s' k := by
  refine run_bind_ok ?_
  unfold act
  rw [h]
  rfl

/-! ### Trails -/

/-- From states in step, the first session stays in step or ends in a state that lags. -/
structure Trails (step lag : σ → τ → Prop) (P : α → α' → Prop) (m : Session κ C ε σ α)
    (n : Session κ C ε τ α') : Prop where
  ok : ∀ s t a s', step s t → m.result s = (.ok a, s') →
    ∃ b t', n.result t = (.ok b, t') ∧ P a b ∧ step s' t'
  error : ∀ s t k e s', step s t → m.run s k = (.error e, s') → lag s' (n.result t).2
  behind : ∀ s t, lag s t → lag s (n.result t).2

namespace Trails

variable {step lag : σ → τ → Prop} {P : α → α' → Prop} {Q : β → β' → Prop}
  {m : Session κ C ε σ α} {n : Session κ C ε τ α'} {f : α → Session κ C ε σ β}
  {g : α' → Session κ C ε τ β'}

theorem pure {a : α} {b : α'} (h : P a b) :
    Trails step lag P (Pure.pure a : Session κ C ε σ α) (Pure.pure b) where
  ok s t a' s' hst hrun := by
    cases hrun
    exact ⟨b, t, rfl, h, hst⟩
  error s t k e s' _ hrun := by
    cases hrun
  behind s t h := h

/-- What lags behind a session lags behind it and another one. -/
theorem behind_bind {s : σ} {t : τ} (h : lag s (n.result t).2)
    (hg : ∀ b t', lag s t' → lag s ((g b).result t').2) : lag s ((n >>= g).result t).2 := by
  rcases hout : n.result t with ⟨e | b, t'⟩
  · rw [result_bind_error hout]
    rwa [hout] at h
  · rw [result_bind_ok hout]
    rw [hout] at h
    exact hg b t' h

/-- The rule of sequencing. -/
theorem bind (h : Trails step lag P m n) (htotal : ∀ b, ∃ a, P a b)
    (hf : ∀ a b, P a b → Trails step lag Q (f a) (g b)) : Trails step lag Q (m >>= f) (n >>= g) where
  ok s t c s'' hst hrun := by
    obtain ⟨a, s', hm, hrest⟩ := bind_eq_ok.mp hrun
    obtain ⟨b, t', hn, hab, hst'⟩ := h.ok s t a s' hst hm
    obtain ⟨d, t'', hg, hcd, hst''⟩ := (hf a b hab).ok s' t' c s'' hst' hrest
    exact ⟨d, t'', (result_bind_ok hn).trans hg, hcd, hst''⟩
  error s t k e s'' hst hrun := by
    rcases hout : (m s).run k with ⟨⟨e', s'⟩ | ⟨a, s'⟩, k'⟩
    · rw [run_bind_error hout] at hrun
      cases hrun
      refine behind_bind (h.error s t k e s'' hst (by rw [run, hout]; rfl)) fun b t' hlag => ?_
      obtain ⟨a, hab⟩ := htotal b
      exact (hf a b hab).behind s'' t' hlag
    · rw [run_bind_ok hout] at hrun
      have hm : m.result s = (.ok a, s') := result_of_run_ok (by rw [run, hout]; rfl)
      obtain ⟨b, t', hn, hab, hst'⟩ := h.ok s t a s' hst hm
      rw [result_bind_ok hn]
      exact (hf a b hab).error s' t' k' e s'' hst' hrun
  behind s t hlag := by
    refine behind_bind (h.behind s t hlag) fun b t' hlag' => ?_
    obtain ⟨a, hab⟩ := htotal b
    exact (hf a b hab).behind s t' hlag'

/-- Two sessions in front that return the same value. -/
theorem bind_eq {n : Session κ C ε τ α} {g : α → Session κ C ε τ β'} (h : Trails step lag Eq m n)
    (hf : ∀ a, Trails step lag Q (f a) (g a)) : Trails step lag Q (m >>= f) (n >>= g) :=
  h.bind (fun b => ⟨b, rfl⟩) fun a _ hab => hab ▸ hf a

/-- A metered computation in both. -/
theorem lift (hlag : ∀ s t, step s t → lag s t) (c : Metered κ C ε α) :
    Trails step lag Eq (liftM c : Session κ C ε σ α) (liftM c) where
  ok s t a s' hst hrun := by
    obtain ⟨hc, rfl⟩ := result_lift_eq_ok.mp hrun
    exact ⟨a, t, result_lift_ok hc, rfl, hst⟩
  error s t k e s' hst hrun := by
    have hleft : (liftM c : Session κ C ε σ α).run s k = ((c.run k).1, s) := run_lift c s k
    have hright : (liftM c : Session κ C ε τ α).result t = (c.result, t) := result_lift c t
    rw [hleft] at hrun
    obtain ⟨-, rfl⟩ := Prod.mk.inj hrun
    rw [hright]
    exact hlag s t hst
  behind s t h := by
    have hright : (liftM c : Session κ C ε τ α).result t = (c.result, t) := result_lift c t
    rw [hright]
    exact h

theorem act {f : σ → Except ε α × σ} {g : τ → Except ε α' × τ}
    (hok : ∀ s t a s', step s t → f s = (.ok a, s') → ∃ b t', g t = (.ok b, t') ∧ P a b ∧ step s' t')
    (herror : ∀ s t e s', step s t → f s = (.error e, s') → lag s' (g t).2)
    (hbehind : ∀ s t, lag s t → lag s (g t).2) :
    Trails step lag P (Session.act f : Session κ C ε σ α) (Session.act g) where
  ok s t a s' hst hrun := by
    rw [result_act] at hrun
    obtain ⟨b, t', hg, hab, hst'⟩ := hok s t a s' hst hrun
    exact ⟨b, t', (result_act g t).trans hg, hab, hst'⟩
  error s t k e s' hst hrun := by
    rw [run_act] at hrun
    rw [result_act]
    exact herror s t e s' hst hrun
  behind s t h := by
    rw [result_act]
    exact hbehind s t h

theorem ite {c : Prop} [Decidable c] {m' : Session κ C ε σ α} {n' : Session κ C ε τ α'}
    (h : c → Trails step lag P m n) (h' : ¬ c → Trails step lag P m' n') :
    Trails step lag P (if c then m else m') (if c then n else n') := by
  by_cases hc : c
  · rw [if_pos hc, if_pos hc]
    exact h hc
  · rw [if_neg hc, if_neg hc]
    exact h' hc

end Trails

end Session
