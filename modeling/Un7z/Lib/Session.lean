/-
Sessions: metered computations with a state.

A metered computation has no state of its own, and an error is all it leaves behind.
A session has one, an object it updates or an environment it calls, and that state is
there after an error too.  So a session is a metered computation whose value and whose
error both carry the state, and its laws are those of `Metered`.

`Triple` is the Hoare logic of sessions under a control that may interrupt them.  It is
about `run` and not about `result`: an interrupted session has still done to its state
what it did, and that is what a safety property is about.  The control itself stays out
of the assertions, so they have to account for an interruption at every step.
-/
import Un7z.Lib.Metered

/-- An error that carries a state interrupts when the error does. -/
instance Purse.carried {κ C ε σ : Type} [AddMonoid C] [Purse κ C ε] : Purse κ C (ε × σ) where
  covers := Purse.covers ε
  spend := Purse.spend ε
  refuses k c e k' := Purse.refuses k c e.1 k'
  interrupts k e := Purse.interrupts C k e.1
  covers_zero k := Purse.covers_zero (ε := ε) k
  covers_add k a b := Purse.covers_add (ε := ε) k a b
  spend_zero k := Purse.spend_zero (ε := ε) k
  spend_add k a b := Purse.spend_add (ε := ε) k a b
  interrupts_spend k a e h := Purse.interrupts_spend k a e.1 h
  interrupts_of_refuses k a e k' h := Purse.interrupts_of_refuses k a e.1 k' h

/-- Operations on a state `σ` that draw on a control `κ` and fail with errors in `ε`. -/
def Session (κ C ε σ : Type) [AddMonoid C] [Purse κ C ε] (α : Type) : Type :=
  σ → Metered κ C (ε × σ) (α × σ)

namespace Session

variable {κ C ε σ α β : Type} [AddMonoid C] [Purse κ C ε]

instance : Monad (Session κ C ε σ) where
  pure a := fun s => pure (a, s)
  bind m f := fun s => m s >>= fun out => f out.1 out.2

/-- The value or the error, and the state after it. -/
def outcome : Except (ε × σ) (α × σ) → Except ε α × σ
  | .ok (a, s) => (.ok a, s)
  | .error (e, s) => (.error e, s)

/-- What the session does under a control. -/
def run (m : Session κ C ε σ α) (s : σ) (k : κ) : Except ε α × σ := outcome ((m s).run k).1

/-- What the session does when nothing interrupts it. -/
def result (m : Session κ C ε σ α) (s : σ) : Except ε α × σ := outcome (m s).result

/-! ### Steps -/

/-- Put a state next to what a metered computation returns. -/
def carry (s : σ) : Except ε α → Except (ε × σ) (α × σ)
  | .ok a => .ok (a, s)
  | .error e => .error (e, s)

/-- A metered computation, which leaves the state as it is. -/
def lift (m : Metered κ C ε α) : Session κ C ε σ α := fun s =>
  { run := fun k => (carry s (m.run k).1, (m.run k).2)
    result := carry s m.result
    trace := m.trace
    replay := fun k => (m.replay k).map (fun _ _ => Iff.rfl) (fun _ _ => rfl)
      fun _ _ e _ h => ⟨(e, s), rfl, h⟩ }

instance : MonadLift (Metered κ C ε) (Session κ C ε σ) := ⟨lift⟩

/-- A step on the state alone. -/
def act (f : σ → Except ε α × σ) : Session κ C ε σ α := fun s =>
  match f s with
  | (.ok a, s') => pure (a, s')
  | (.error e, s') => Metered.fail (e, s')

/-- The session alone, from a state nobody else sees. -/
def discard (m : Session κ C ε σ α) (s : σ) : Metered κ C ε α where
  run k := ((m.run s k).1, ((m s).run k).2)
  result := (m.result s).1
  trace := (m s).trace
  replay k := ((m s).replay k).map (f := fun out => (outcome out).1) (fun _ _ => Iff.rfl)
    (fun _ _ => rfl) fun _ _ e _ h => ⟨e.1, rfl, h⟩

theorem result_discard (m : Session κ C ε σ α) (s : σ) :
    (m.discard s).result = (m.result s).1 := rfl

theorem run_pure (a : α) (s : σ) (k : κ) :
    run (pure a : Session κ C ε σ α) s k = (.ok a, s) := rfl

theorem run_lift (m : Metered κ C ε α) (s : σ) (k : κ) :
    run (lift m : Session κ C ε σ α) s k = ((m.run k).1, s) := by
  show outcome (carry s (m.run k).1) = _
  cases (m.run k).1 <;> rfl

theorem run_act (f : σ → Except ε α × σ) (s : σ) (k : κ) :
    run (act f : Session κ C ε σ α) s k = f s := by
  unfold run act
  rcases f s with ⟨_ | _, s'⟩ <;> rfl

theorem result_lift (m : Metered κ C ε α) (s : σ) :
    result (lift m : Session κ C ε σ α) s = (m.result, s) := by
  show outcome (carry s m.result) = _
  cases m.result <;> rfl

theorem result_act (f : σ → Except ε α × σ) (s : σ) :
    result (act f : Session κ C ε σ α) s = f s := by
  unfold result act
  rcases f s with ⟨_ | _, s'⟩ <;> rfl

theorem result_pure (a : α) (s : σ) : result (pure a : Session κ C ε σ α) s = (.ok a, s) := rfl

theorem run_bind_ok {m : Session κ C ε σ α} {f : α → Session κ C ε σ β} {s s' : σ} {k k' : κ}
    {a : α} (h : (m s).run k = (.ok (a, s'), k')) : (m >>= f).run s k = (f a).run s' k' := by
  show outcome (Metered.runAfter ((m s).run k) _).1 = _
  rw [h]
  rfl

theorem run_bind_error {m : Session κ C ε σ α} {f : α → Session κ C ε σ β} {s s' : σ}
    {k k' : κ} {e : ε} (h : (m s).run k = (.error (e, s'), k')) :
    (m >>= f).run s k = (.error e, s') := by
  show outcome (Metered.runAfter ((m s).run k) _).1 = _
  rw [h]
  rfl

/-- A metered computation that succeeds is out of the way of a run. -/
theorem run_lift_bind {m : Metered κ C ε α} {f : α → Session κ C ε σ β} {s : σ} {k k' : κ} {a : α}
    (h : m.run k = (.ok a, k')) :
    (((liftM m : Session κ C ε σ α) >>= f) s).run k = (f a s).run k' := by
  show Metered.runAfter (carry s (m.run k).1, (m.run k).2) _ = _
  rw [h]
  rfl

theorem outcome_eq_ok {out : Except (ε × σ) (α × σ)} {a : α} {s : σ} :
    outcome out = (.ok a, s) ↔ out = .ok (a, s) := by
  rcases out with ⟨e, s'⟩ | ⟨b, s'⟩ <;> simp [outcome]

theorem result_bind_ok {m : Session κ C ε σ α} {f : α → Session κ C ε σ β} {s s' : σ} {a : α}
    (h : m.result s = (.ok a, s')) : (m >>= f).result s = (f a).result s' := by
  show outcome (Metered.resultAfter (m s).result _) = _
  rw [outcome_eq_ok.mp h]
  rfl

theorem outcome_eq_error {out : Except (ε × σ) (α × σ)} {e : ε} {s : σ} :
    outcome out = (.error e, s) ↔ out = .error (e, s) := by
  rcases out with ⟨e', s'⟩ | ⟨b, s'⟩ <;> simp [outcome]

theorem result_bind_error {m : Session κ C ε σ α} {f : α → Session κ C ε σ β} {s s' : σ} {e : ε}
    (h : m.result s = (.error e, s')) : (m >>= f).result s = (.error e, s') := by
  show outcome (Metered.resultAfter (m s).result _) = _
  rw [outcome_eq_error.mp h]
  rfl

theorem result_lift_eq_ok {m : Metered κ C ε α} {s s' : σ} {a : α} :
    (liftM m : Session κ C ε σ α).result s = (.ok a, s') ↔ m.result = .ok a ∧ s' = s := by
  have hlift : (liftM m : Session κ C ε σ α).result s = (m.result, s) := result_lift m s
  rw [hlift, Prod.mk.injEq, @eq_comm _ s]

theorem result_lift_ok {m : Metered κ C ε α} {s : σ} {a : α} (h : m.result = .ok a) :
    (liftM m : Session κ C ε σ α).result s = (.ok a, s) :=
  (result_lift m s).trans (congrArg (·, s) h)

/-- A metered computation that fails is the end, and leaves the state as it is. -/
theorem result_lift_error {m : Metered κ C ε α} {f : α → Session κ C ε σ β} {s : σ} {e : ε}
    (h : m.result = .error e) :
    ((liftM m : Session κ C ε σ α) >>= f).result s = (.error e, s) := by
  have hlift : (liftM m : Session κ C ε σ α).result s = (.error e, s) :=
    (result_lift m s).trans (congrArg (·, s) h)
  exact result_bind_error hlift

/-- A metered computation that succeeds is out of the way. -/
theorem result_lift_bind {m : Metered κ C ε α} {f : α → Session κ C ε σ β} {s : σ} {a : α}
    (h : m.result = .ok a) :
    ((liftM m : Session κ C ε σ α) >>= f).result s = (f a).result s :=
  result_bind_ok (result_lift_ok h)

/-- A sequence succeeds exactly when both of its parts do. -/
theorem bind_eq_ok {m : Session κ C ε σ α} {f : α → Session κ C ε σ β} {s s'' : σ} {b : β} :
    (m >>= f).result s = (.ok b, s'') ↔
      ∃ a s', m.result s = (.ok a, s') ∧ (f a).result s' = (.ok b, s'') := by
  simp only [result, outcome_eq_ok]
  show (m s >>= fun out => f out.1 out.2).result = _ ↔ _
  rw [Metered.bind_eq_ok]
  exact ⟨fun ⟨out, h⟩ => ⟨out.1, out.2, h⟩, fun ⟨a, s', h⟩ => ⟨(a, s'), h⟩⟩

/-- What a run can end in: the result, or an interruption. -/
theorem run_cases (m : Session κ C ε σ α) (s : σ) (k : κ) :
    m.run s k = m.result s ∨ ∃ e s', m.run s k = (.error e, s') ∧ Purse.interrupts C k e := by
  rcases (m s).run_cases k with hrun | ⟨⟨e, s'⟩, k', hrun, hint⟩
  · exact Or.inl (by rw [run, hrun]; rfl)
  · exact Or.inr ⟨e, s', by rw [run, hrun]; rfl, hint⟩

/-! ### Triples -/

/-- From a state in `P` the session ends in `Q`, or with an error in `E`, whatever the control. -/
def Triple (P : σ → Prop) (m : Session κ C ε σ α) (Q : α → σ → Prop) (E : ε → σ → Prop) : Prop :=
  ∀ s k, P s →
    (∀ a s', m.run s k = (.ok a, s') → Q a s') ∧ ∀ e s', m.run s k = (.error e, s') → E e s'

namespace Triple

variable {P P' : σ → Prop} {Q R : α → σ → Prop} {E : ε → σ → Prop}

theorem pure {a : α} (h : ∀ s, P s → Q a s) :
    Triple P (Pure.pure a : Session κ C ε σ α) Q E := by
  intro s k hs
  rw [run_pure]
  exact ⟨fun _ _ heq => by cases heq; exact h s hs, fun _ _ heq => by cases heq⟩

/-- The rule of sequencing. -/
theorem bind {m : Session κ C ε σ α} {f : α → Session κ C ε σ β} {S : β → σ → Prop}
    (hm : Triple P m R E) (hf : ∀ a, Triple (R a) (f a) S E) : Triple P (m >>= f) S E := by
  intro s k hs
  have hfirst := hm s k hs
  rcases hout : (m s).run k with ⟨⟨e, s'⟩ | ⟨a, s'⟩, k'⟩
  · rw [run_bind_error hout]
    refine ⟨fun b s'' heq => (by cases heq), fun e' s'' heq => ?_⟩
    cases heq
    exact hfirst.2 e s' (by rw [run, hout]; rfl)
  · rw [run_bind_ok hout]
    exact hf a s' k' (hfirst.1 a s' (by rw [run, hout]; rfl))

/-- A metered computation returns its result; every error it may end in is accounted for. -/
theorem lift {m : Metered κ C ε α} (hok : ∀ a, m.result = .ok a → ∀ s, P s → Q a s)
    (herror : ∀ e s, P s → E e s) : Triple P (Session.lift m) Q E := by
  intro s k hs
  rw [run_lift]
  refine ⟨fun a s' heq => ?_, fun e s' heq => ?_⟩
  · obtain ⟨ha, rfl⟩ := Prod.mk.inj heq
    exact hok a (Metered.result_of_run_ok (Prod.ext ha rfl)).1 s hs
  · obtain ⟨-, rfl⟩ := Prod.mk.inj heq
    exact herror e s hs

/-- A metered computation under a triple of its own; an interruption is an error as well. -/
theorem liftEnsures {φ : α → Prop} {F : ε → Prop} {m : Metered κ C ε α} (hm : m.Ensures φ F)
    (hok : ∀ a s, φ a → P s → Q a s) (herror : ∀ e s, F e → P s → E e s)
    (hinterrupt : ∀ (k : κ) e s, Purse.interrupts C k e → P s → E e s) :
    Triple P (Session.lift m) Q E := by
  intro s k hs
  rw [run_lift]
  rcases m.run_cases k with hrun | ⟨e', k', hrun, hint⟩
  · rw [hrun]
    refine ⟨fun a s' heq => ?_, fun e s' heq => ?_⟩
    · obtain ⟨ha, rfl⟩ := Prod.mk.inj heq
      exact hok a s (hm.ok ha) hs
    · obtain ⟨he, rfl⟩ := Prod.mk.inj heq
      exact herror e s (hm.error he) hs
  · rw [hrun]
    refine ⟨fun a s' heq => absurd (Prod.mk.inj heq).1 (by simp), fun e s' heq => ?_⟩
    obtain ⟨he, rfl⟩ := Prod.mk.inj heq
    obtain rfl := Except.error.inj he
    exact hinterrupt k e' s hint hs

theorem act {f : σ → Except ε α × σ} (hok : ∀ s a s', P s → f s = (.ok a, s') → Q a s')
    (herror : ∀ s e s', P s → f s = (.error e, s') → E e s') :
    Triple P (Session.act f : Session κ C ε σ α) Q E := by
  intro s k hs
  rw [run_act]
  exact ⟨fun a s' => hok s a s' hs, fun e s' => herror s e s' hs⟩

/-- The rule of consequence. -/
theorem mono {m : Session κ C ε σ α} {E' : ε → σ → Prop} (h : Triple P m R E)
    (hP : ∀ s, P' s → P s) (hR : ∀ a s, R a s → Q a s) (hE : ∀ e s, E e s → E' e s) :
    Triple P' m Q E' :=
  fun s k hs => ⟨fun a s' heq => hR a s' ((h s k (hP s hs)).1 a s' heq),
    fun e s' heq => hE e s' ((h s k (hP s hs)).2 e s' heq)⟩

/-- What the precondition says apart from the state may be assumed. -/
theorem assume {φ : Prop} {m : Session κ C ε σ α} (h : φ → Triple P m Q E) :
    Triple (fun s => φ ∧ P s) m Q E :=
  fun s k hs => h hs.1 s k hs.2

/-- So may a witness of it. -/
theorem choose {ι : Sort*} {p : ι → σ → Prop} {m : Session κ C ε σ α}
    (h : ∀ i, Triple (p i) m Q E) : Triple (fun s => ∃ i, p i s) m Q E :=
  fun s k ⟨i, hi⟩ => h i s k hi

end Triple

end Session
