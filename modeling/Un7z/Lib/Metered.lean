/-
Computations that draw on a purse.

A metered computation runs against a control state (a work budget, a cancellation
flag) that may stop it at any moment.  What makes such programs tractable is that
the control state decides only *whether* they reach their end, never *which* end.
`Metered` is a computation together with that fact: next to the state-passing `run`
it carries the `result` of the run nothing stops and the `trace` of what that run
asks for, and a run is a `Replay` of the trace, which ends in the result or where the
purse first turns something down.

The two laws that matter follow for every purse.

  * `pays`: a purse that covers the cost gets exactly the result, and is left with
    exactly the cost spent.
  * `stops`: a purse that does not cover it gets one of the errors with which that
    purse interrupts, and nothing else.

Replays are closed under sequencing.  They are closed under catching an error only
when the handler lets every interruption through, and `attempt` asks for exactly
that.  So a program written with these combinators has the two-run law by
construction, and its functional correctness is a statement about `result`, in
which no budget is left to reason about.
-/
import Mathlib.Algebra.Group.Prod
import Mathlib.Algebra.Group.Nat.Defs
import Mathlib.Algebra.BigOperators.Group.List.Defs

/-- A control state `κ` that pays costs in `C` and interrupts with errors in `ε`. -/
class Purse (κ C ε : Type) [AddMonoid C] where
  /-- The purse can pay this much. -/
  covers : κ → C → Prop
  /-- What is left of it afterwards. -/
  spend : κ → C → κ
  /-- It turns this much down, with this error, and is left as that. -/
  refuses : κ → C → ε → κ → Prop
  /-- The errors with which this purse can stop a computation. -/
  interrupts : κ → ε → Prop
  covers_zero : ∀ k, covers k 0
  covers_add : ∀ k a b, covers k (a + b) ↔ covers k a ∧ covers (spend k a) b
  spend_zero : ∀ k, spend k 0 = k
  spend_add : ∀ k a b, spend k (a + b) = spend (spend k a) b
  interrupts_spend : ∀ k a e, interrupts (spend k a) e → interrupts k e
  interrupts_of_refuses : ∀ k a e k', refuses k a e k' → interrupts k e

/-- Ask for these sums one after the other, and end in `r` when none of them is turned down. -/
inductive Replay {κ C ε α : Type} [AddMonoid C] [Purse κ C ε] (r : Except ε α) :
    List C → κ → Except ε α × κ → Prop
  | done {k : κ} : Replay r [] k (r, k)
  | pay {c : C} {rest : List C} {k : κ} {out : Except ε α × κ} :
      Purse.covers ε k c → Replay r rest (Purse.spend ε k c) out → Replay r (c :: rest) k out
  | refuse {c : C} {rest : List C} {k k' : κ} {e : ε} :
      ¬ Purse.covers ε k c → Purse.refuses k c e k' → Replay r (c :: rest) k (.error e, k')

/-- A computation with the outcome of its uninterrupted run, and all that run asks for. -/
structure Metered (κ C ε : Type) [AddMonoid C] [Purse κ C ε] (α : Type) where
  run : κ → Except ε α × κ
  result : Except ε α
  trace : List C
  replay : ∀ k, Replay result trace k (run k)

namespace Replay

open Purse

variable {κ C ε α : Type} [AddMonoid C] [Purse κ C ε] {r : Except ε α} {trace : List C}
  {k : κ} {out : Except ε α × κ}

theorem eq_of_covers (h : Replay r trace k out) (hcovers : covers ε k trace.sum) :
    out = (r, spend ε k trace.sum) := by
  induction h with
  | done => rw [List.sum_nil, spend_zero]
  | pay _ _ ih =>
      rw [List.sum_cons] at hcovers ⊢
      rw [ih ((covers_add _ _ _).mp hcovers).2, spend_add]
  | refuse hnot _ =>
      rw [List.sum_cons] at hcovers
      exact absurd ((covers_add _ _ _).mp hcovers).1 hnot

theorem interrupted (h : Replay r trace k out) (hnot : ¬ covers ε k trace.sum) :
    ∃ e k', out = (.error e, k') ∧ interrupts C k e := by
  induction h with
  | done => exact absurd (covers_zero _) hnot
  | pay hcovers _ ih =>
      rw [List.sum_cons, covers_add] at hnot
      obtain ⟨e, k', hout, hint⟩ := ih fun h => hnot ⟨hcovers, h⟩
      exact ⟨e, k', hout, interrupts_spend _ _ _ hint⟩
  | refuse _ hrefuses => exact ⟨_, _, rfl, interrupts_of_refuses _ _ _ _ hrefuses⟩

/-- Rewrite the end of a replay, leaving what the purse turns down turned down. -/
theorem map {ε' β : Type} [Purse κ C ε'] {f : Except ε α → Except ε' β}
    (hcovers : ∀ (k : κ) (c : C), covers ε' k c ↔ covers ε k c)
    (hspend : ∀ (k : κ) (c : C), spend ε' k c = spend ε k c)
    (hrefuses : ∀ (k : κ) (c : C) (e : ε) (k' : κ), refuses k c e k' →
      ∃ e', f (.error e) = .error e' ∧ refuses k c e' k')
    (h : Replay r trace k out) : Replay (f r) trace k (f out.1, out.2) := by
  induction h with
  | done => exact .done
  | pay hc _ ih =>
      refine .pay ((hcovers _ _).mpr hc) ?_
      rwa [hspend]
  | refuse hnot href =>
      obtain ⟨e', hf, href'⟩ := hrefuses _ _ _ _ href
      rw [hf]
      exact .refuse (mt (hcovers _ _).mp hnot) href'

end Replay

namespace Metered

open Purse

variable {κ C ε : Type} [AddMonoid C] [Purse κ C ε] {α β γ : Type}

@[ext] theorem ext {m n : Metered κ C ε α} (hrun : m.run = n.run)
    (hresult : m.result = n.result) (htrace : m.trace = n.trace) : m = n := by
  cases m
  cases n
  simp_all

/-- What the uninterrupted run costs. -/
def cost (m : Metered κ C ε α) : C := m.trace.sum

theorem pays (m : Metered κ C ε α) (k : κ) (h : covers ε k m.cost) :
    m.run k = (m.result, spend ε k m.cost) := (m.replay k).eq_of_covers h

theorem stops (m : Metered κ C ε α) (k : κ) (h : ¬ covers ε k m.cost) :
    ∃ e k', m.run k = (.error e, k') ∧ interrupts C k e := (m.replay k).interrupted h

/-! ### Sequencing -/

/-- Return a value for free. -/
protected def pure (a : α) : Metered κ C ε α where
  run k := (.ok a, k)
  result := .ok a
  trace := []
  replay _ := .done

/-- Fail for free. -/
def fail (e : ε) : Metered κ C ε α where
  run k := (.error e, k)
  result := .error e
  trace := []
  replay _ := .done

/-- What is still asked for once a computation has ended with `r`. -/
def traceAfter (r : Except ε α) (f : α → Metered κ C ε β) : List C :=
  match r with
  | .ok a => (f a).trace
  | .error _ => []

/-- What is still to be paid once a computation has ended with `r`. -/
def costAfter (r : Except ε α) (f : α → Metered κ C ε β) : C :=
  match r with
  | .ok a => (f a).cost
  | .error _ => 0

/-- Run `f` on what a first run returned, in the control state it left behind. -/
def runAfter (out : Except ε α × κ) (f : α → Metered κ C ε β) : Except ε β × κ :=
  match out with
  | (.ok a, k) => (f a).run k
  | (.error e, k) => (.error e, k)

/-- The outcome of `f` on what a first computation returned. -/
def resultAfter (r : Except ε α) (f : α → Metered κ C ε β) : Except ε β :=
  match r with
  | .ok a => (f a).result
  | .error e => .error e

theorem sum_traceAfter (r : Except ε α) (f : α → Metered κ C ε β) :
    (traceAfter r f).sum = costAfter r f := by
  cases r <;> rfl

/-- Replay one computation and then the one its value selects. -/
theorem replay_bind {r : Except ε α} {trace : List C} {k : κ} {out : Except ε α × κ}
    (h : Replay r trace k out) (f : α → Metered κ C ε β) :
    Replay (resultAfter r f) (trace ++ traceAfter r f) k (runAfter out f) := by
  induction h with
  | @done k =>
      cases r with
      | ok a => exact (f a).replay k
      | error e => exact .done
  | pay hcovers _ ih => exact .pay hcovers ih
  | refuse hnot hrefuses => exact .refuse hnot hrefuses

/-- Run one computation and then the one its value selects. -/
protected def bind (m : Metered κ C ε α) (f : α → Metered κ C ε β) : Metered κ C ε β where
  run k := runAfter (m.run k) f
  result := resultAfter m.result f
  trace := m.trace ++ traceAfter m.result f
  replay k := replay_bind (m.replay k) f

instance : Monad (Metered κ C ε) where
  pure := Metered.pure
  bind := Metered.bind

@[simp] theorem run_pure (a : α) (k : κ) : (pure a : Metered κ C ε α).run k = (.ok a, k) := rfl

@[simp] theorem result_pure (a : α) : (pure a : Metered κ C ε α).result = .ok a := rfl

@[simp] theorem cost_pure (a : α) : (pure a : Metered κ C ε α).cost = 0 := rfl

@[simp] theorem run_fail (e : ε) (k : κ) : (fail e : Metered κ C ε α).run k = (.error e, k) := rfl

@[simp] theorem result_fail (e : ε) : (fail e : Metered κ C ε α).result = .error e := rfl

@[simp] theorem cost_fail (e : ε) : (fail e : Metered κ C ε α).cost = 0 := rfl

theorem run_bind (m : Metered κ C ε α) (f : α → Metered κ C ε β) (k : κ) :
    (m >>= f).run k = runAfter (m.run k) f := rfl

theorem result_bind (m : Metered κ C ε α) (f : α → Metered κ C ε β) :
    (m >>= f).result = resultAfter m.result f := rfl

theorem trace_bind (m : Metered κ C ε α) (f : α → Metered κ C ε β) :
    (m >>= f).trace = m.trace ++ traceAfter m.result f := rfl

theorem cost_bind (m : Metered κ C ε α) (f : α → Metered κ C ε β) :
    (m >>= f).cost = m.cost + costAfter m.result f := by
  rw [cost, trace_bind, List.sum_append, sum_traceAfter, cost]

instance : LawfulMonad (Metered κ C ε) := LawfulMonad.mk' _
  (by
    intro α m
    refine ext (funext fun k => ?_) ?_ ?_
    · show runAfter (m.run k) _ = m.run k
      rcases m.run k with ⟨_ | _, k'⟩ <;> rfl
    · show resultAfter m.result _ = m.result
      cases m.result <;> rfl
    · show m.trace ++ traceAfter m.result _ = m.trace
      cases m.result <;> exact List.append_nil _)
  (by
    intro α β a f
    exact ext rfl rfl rfl)
  (by
    intro α β γ m f g
    refine ext (funext fun k => ?_) ?_ ?_
    · simp only [run_bind]
      rcases m.run k with ⟨_ | _, k'⟩ <;> rfl
    · simp only [result_bind]
      cases m.result <;> rfl
    · simp only [trace_bind, result_bind]
      cases m.result with
      | ok a => exact List.append_assoc _ _ _
      | error e => simp [traceAfter, resultAfter])

/-! ### Reading an outcome back -/

@[simp] theorem result_bind_ok {m : Metered κ C ε α} {f : α → Metered κ C ε β} {a : α}
    (h : m.result = .ok a) : (m >>= f).result = (f a).result := by
  rw [result_bind, h]; rfl

@[simp] theorem result_bind_error {m : Metered κ C ε α} {f : α → Metered κ C ε β} {e : ε}
    (h : m.result = .error e) : (m >>= f).result = .error e := by
  rw [result_bind, h]; rfl

/-- A sequence succeeds exactly when both of its parts do. -/
theorem bind_eq_ok {m : Metered κ C ε α} {f : α → Metered κ C ε β} {b : β} :
    (m >>= f).result = .ok b ↔ ∃ a, m.result = .ok a ∧ (f a).result = .ok b := by
  rw [result_bind]
  cases m.result with
  | ok a => simp [resultAfter]
  | error e => simp [resultAfter]

/-- A sequence fails exactly when one of its parts does. -/
theorem bind_eq_error {m : Metered κ C ε α} {f : α → Metered κ C ε β} {e : ε} :
    (m >>= f).result = .error e ↔
      m.result = .error e ∨ ∃ a, m.result = .ok a ∧ (f a).result = .error e := by
  rw [result_bind]
  cases m.result with
  | ok a => simp [resultAfter]
  | error e' => simp [resultAfter]

@[simp] theorem result_map (g : α → β) (m : Metered κ C ε α) :
    (g <$> m).result = m.result.map g := by
  show resultAfter m.result _ = _
  cases m.result <;> rfl

/-- What a run can return: the result, or an interruption. -/
theorem run_cases (m : Metered κ C ε α) (k : κ) :
    m.run k = (m.result, spend ε k m.cost) ∨
      ∃ e k', m.run k = (.error e, k') ∧ interrupts C k e := by
  by_cases h : covers ε k m.cost
  · exact Or.inl (m.pays k h)
  · exact Or.inr (m.stops k h)

/-- A run that succeeds returns the result, at its full price. -/
theorem result_of_run_ok {m : Metered κ C ε α} {k k' : κ} {a : α}
    (h : m.run k = (.ok a, k')) : m.result = .ok a ∧ k' = spend ε k m.cost := by
  rcases m.run_cases k with hrun | ⟨e, k'', hrun, -⟩
  · rw [hrun] at h
    exact ⟨congrArg Prod.fst h, (congrArg Prod.snd h).symm⟩
  · rw [hrun] at h
    exact absurd (congrArg Prod.fst h) (by simp)

/-- The rest of a computation matters for the values it can be given. -/
theorem bind_congr_ok {m : Metered κ C ε α} {f g : α → Metered κ C ε β}
    (h : ∀ a, m.result = .ok a → f a = g a) : m >>= f = m >>= g := by
  refine ext (funext fun k => ?_) ?_ ?_
  · rw [run_bind, run_bind]
    rcases hrun : m.run k with ⟨e | a, k'⟩
    · rfl
    · show (f a).run k' = (g a).run k'
      rw [h a (result_of_run_ok hrun).1]
  · rw [result_bind, result_bind]
    cases hm : m.result with
    | ok a => exact congrArg result (h a hm)
    | error e => rfl
  · rw [trace_bind, trace_bind]
    cases hm : m.result with
    | ok a => exact congrArg (fun n => m.trace ++ n.trace) (h a hm)
    | error e => rfl

/-- A computation that asks for nothing always returns its result. -/
theorem run_of_free {m : Metered κ C ε α} (h : m.trace = []) (k : κ) : m.run k = (m.result, k) := by
  have hreplay := m.replay k
  rw [h] at hreplay
  generalize m.run k = out at hreplay
  cases hreplay
  rfl

/-- A computation that asks for nothing is its value. -/
theorem eq_pure_of_free {m : Metered κ C ε α} {a : α} (hfree : m.trace = [])
    (h : m.result = .ok a) : m = pure a :=
  ext (funext fun k => by rw [run_of_free hfree k, h]; rfl) h hfree

theorem trace_bind_of_free {m : Metered κ C ε α} {f : α → Metered κ C ε β} (hm : m.trace = [])
    (hf : ∀ a, (f a).trace = []) : (m >>= f).trace = [] := by
  rw [trace_bind, hm, List.nil_append]
  cases m.result with
  | ok a => exact hf a
  | error e => rfl

/-! ### Triples -/

/-- The outcome is a value in `P`, or else an error in `F`. -/
def Ensures (m : Metered κ C ε α) (P : α → Prop) (F : ε → Prop) : Prop :=
  match m.result with
  | .ok a => P a
  | .error e => F e

theorem ensures_of_ok {m : Metered κ C ε α} {P : α → Prop} {F : ε → Prop} {a : α}
    (h : m.result = .ok a) (ha : P a) : m.Ensures P F := by
  rw [Ensures, h]
  exact ha

theorem ensures_of_error {m : Metered κ C ε α} {P : α → Prop} {F : ε → Prop} {e : ε}
    (h : m.result = .error e) (he : F e) : m.Ensures P F := by
  rw [Ensures, h]
  exact he

/-- A first part that succeeds is out of the way. -/
theorem ensures_bind_ok {m : Metered κ C ε α} {f : α → Metered κ C ε β} {P : β → Prop}
    {F : ε → Prop} {a : α} (h : m.result = .ok a) (hf : (f a).Ensures P F) :
    (m >>= f).Ensures P F := by
  rwa [Ensures, result_bind_ok h]

/-- A triple read off the outcome. -/
theorem ensures_iff {m : Metered κ C ε α} {P : α → Prop} {F : ε → Prop} :
    m.Ensures P F ↔ (∀ a, m.result = .ok a → P a) ∧ ∀ e, m.result = .error e → F e := by
  unfold Ensures
  cases m.result <;> simp

namespace Ensures

variable {m : Metered κ C ε α} {P Q : α → Prop} {F G : ε → Prop}

theorem ok (h : m.Ensures P F) {a : α} (ha : m.result = .ok a) : P a := (ensures_iff.mp h).1 a ha

theorem error (h : m.Ensures P F) {e : ε} (he : m.result = .error e) : F e :=
  (ensures_iff.mp h).2 e he

theorem mono (h : m.Ensures P F) (hP : ∀ a, P a → Q a) (hF : ∀ e, F e → G e) :
    m.Ensures Q G :=
  ensures_iff.mpr ⟨fun a ha => hP a (h.ok ha), fun e he => hF e (h.error he)⟩

/-- The rule of sequencing. -/
theorem bind {f : α → Metered κ C ε β} {R : β → Prop} (h : m.Ensures P F)
    (hf : ∀ a, P a → (f a).Ensures R F) : (m >>= f).Ensures R F := by
  cases hm : m.result with
  | ok a =>
      have ha := hf a (h.ok hm)
      rwa [Ensures, ← result_bind_ok hm] at ha
  | error e => exact ensures_of_error (result_bind_error hm) (h.error hm)

/-- The rule for a computation that ends as another one does, up to its value. -/
theorem of_map {n : Metered κ C ε β} {g : α → β} {R : β → Prop} (h : m.Ensures P F)
    (hn : n.result = m.result.map g) (hP : ∀ a, P a → R (g a)) : n.Ensures R F := by
  cases hm : m.result with
  | ok a => exact ensures_of_ok (hn.trans (congrArg _ hm)) (hP a (h.ok hm))
  | error e => exact ensures_of_error (hn.trans (congrArg _ hm)) (h.error hm)

/-- A run that fails has failed that way, or was interrupted. -/
theorem run_error (h : m.Ensures P F) {k : κ} {e : ε} (he : (m.run k).1 = .error e) :
    F e ∨ interrupts C k e := by
  rcases m.run_cases k with hrun | ⟨e', k', hrun, hint⟩
  · rw [hrun] at he
    exact Or.inl (h.error he)
  · rw [hrun] at he
    exact Or.inr (Except.error.inj he ▸ hint)

/-- With no way to fail there is a value. -/
theorem exists_ok (h : m.Ensures P F) (hF : ∀ e, ¬ F e) : ∃ a, m.result = .ok a ∧ P a := by
  cases hm : m.result with
  | ok a => exact ⟨a, rfl, h.ok hm⟩
  | error e => exact absurd (h.error hm) (hF e)

end Ensures

/-! ### Ways to fail -/

/-- Every error of the result is one of these. -/
def FailsIn (F : ε → Prop) (m : Metered κ C ε α) : Prop := ∀ e, m.result = .error e → F e

namespace FailsIn

variable {m : Metered κ C ε α} {F : ε → Prop}

@[grind ←] theorem pure (a : α) : FailsIn F (Pure.pure a : Metered κ C ε α) :=
  fun _ h => absurd h (by simp)

@[grind ←] theorem fail {e : ε} (h : F e) : FailsIn F (fail e : Metered κ C ε α) := by
  simpa [FailsIn] using h

/-- A sequence fails in the ways of its parts; the second part may count on the first. -/
theorem bind_of_ok {f : α → Metered κ C ε β} (h : FailsIn F m)
    (hf : ∀ a, m.result = .ok a → FailsIn F (f a)) : FailsIn F (m >>= f) := by
  intro e he
  rcases bind_eq_error.mp he with he | ⟨a, ha, he⟩
  · exact h e he
  · exact hf a ha e he

@[grind ←] theorem bind {f : α → Metered κ C ε β} (h : FailsIn F m) (hf : ∀ a, FailsIn F (f a)) :
    FailsIn F (m >>= f) :=
  h.bind_of_ok fun a _ => hf a

@[grind ←] theorem map {g : α → β} (h : FailsIn F m) : FailsIn F (g <$> m) := by
  intro e he
  rw [result_map] at he
  cases hm : m.result with
  | ok a => simp [hm, Except.map] at he
  | error e' =>
      obtain rfl : e' = e := by simpa [hm, Except.map] using he
      exact h e' hm

theorem ite {c : Prop} [Decidable c] {n : Metered κ C ε α} (hm : FailsIn F m)
    (hn : FailsIn F n) : FailsIn F (if c then m else n) := by
  split
  · exact hm
  · exact hn

end FailsIn

/-! ### Handling errors -/

/-- An outcome with the errors that are not fatal turned into values. -/
def attempted (fatal : ε → Bool) : Except ε α → Except ε (Except ε α)
  | .ok a => .ok (.ok a)
  | .error e => if fatal e then .error e else .ok (.error e)

/--
Turn the errors that are not fatal into values.

`hfatal` is what the two-run law needs of a handler: an interruption is never
mistaken for an outcome.
-/
def attempt (fatal : ε → Bool) (hfatal : ∀ (k : κ) (e : ε), interrupts C k e → fatal e = true)
    (m : Metered κ C ε α) : Metered κ C ε (Except ε α) where
  run k := (attempted fatal (m.run k).1, (m.run k).2)
  result := attempted fatal m.result
  trace := m.trace
  replay k := (m.replay k).map (fun _ _ => Iff.rfl) (fun _ _ => rfl) fun k c e k' h =>
    ⟨e, by simp [attempted, hfatal k e (interrupts_of_refuses k c e k' h)], h⟩

theorem result_attempt_ok {fatal : ε → Bool}
    {hfatal : ∀ (k : κ) (e : ε), interrupts C k e → fatal e = true}
    {m : Metered κ C ε α} {a : α} (h : m.result = .ok a) :
    (attempt fatal hfatal m).result = .ok (.ok a) := by
  simp [attempt, attempted, h]

theorem result_attempt_error {fatal : ε → Bool}
    {hfatal : ∀ (k : κ) (e : ε), interrupts C k e → fatal e = true}
    {m : Metered κ C ε α} {e : ε} (h : m.result = .error e) :
    (attempt fatal hfatal m).result = if fatal e then .error e else .ok (.error e) := by
  simp [attempt, attempted, h]

/-- Rewrite the errors of a computation, leaving its interruptions alone. -/
def mapError (g : ε → ε) (hg : ∀ (k : κ) (e : ε), interrupts C k e → g e = e)
    (m : Metered κ C ε α) : Metered κ C ε α where
  run k := ((m.run k).1.mapError g, (m.run k).2)
  result := m.result.mapError g
  trace := m.trace
  replay k := (m.replay k).map (fun _ _ => Iff.rfl) (fun _ _ => rfl) fun k c e k' h =>
    ⟨e, by rw [Except.mapError, hg k e (interrupts_of_refuses k c e k' h)], h⟩

@[simp] theorem result_mapError (g : ε → ε)
    (hg : ∀ (k : κ) (e : ε), interrupts C k e → g e = e) (m : Metered κ C ε α) :
    (mapError g hg m).result = m.result.mapError g := rfl

end Metered
