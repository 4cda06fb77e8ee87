/-
Programs with checks built in.

A program that checks an assertion at every step is the program without the checks,
wherever no check fires.  To show that none does is to show two things at once: that the
two programs are the same one, and a triple about it, since the one needs the other at the
next step.  `Alike` says both of two computations, `Coupled` of two programs over a state
that keeps an invariant, and each has the rules of a triple.

`watch` builds the checks in.  It is the only place where two coupled programs differ; from
there on their coupling follows their text.
-/
import Un7z.Lib.Metered

namespace Metered

variable {κ C ε : Type} [AddMonoid C] [Purse κ C ε] {α β : Type}

/-- The computations are one, and its outcome is a value in `P` or an error in `F`. -/
structure Alike (F : ε → Prop) (m n : Metered κ C ε α) (P : α → Prop) : Prop where
  eq : m = n
  ensures : n.Ensures P F

namespace Alike

variable {F : ε → Prop} {P Q : α → Prop} {R : β → Prop} {m n : Metered κ C ε α}
  {f g : α → Metered κ C ε β}

theorem refl (h : m.Ensures P F) : Alike F m m P := ⟨rfl, h⟩

theorem pure {a : α} (h : P a) :
    Alike F (Pure.pure a : Metered κ C ε α) (Pure.pure a) P := refl (ensures_of_ok rfl h)

theorem fail {e : ε} (h : F e) :
    Alike F (fail e : Metered κ C ε α) (fail e) P := refl (ensures_of_error rfl h)

theorem mono (h : Alike F m n P) (hP : ∀ a, P a → Q a) : Alike F m n Q :=
  ⟨h.eq, h.ensures.mono hP fun _ he => he⟩

/-- The rule of sequencing. -/
theorem bind (h : Alike F m n P) (hf : ∀ a, P a → Alike F (f a) (g a) R) :
    Alike F (m >>= f) (n >>= g) R := by
  obtain ⟨rfl, hensures⟩ := h
  refine ⟨bind_congr_ok fun a ha => (hf a (hensures.ok ha)).eq, ?_⟩
  exact hensures.bind fun a ha => (hf a ha).ensures

/-- A first part that succeeds is out of the way. -/
theorem bind_ok {a : α} (h : m.result = .ok a) (hf : Alike F (f a) (g a) R) :
    Alike F (m >>= f) (m >>= g) R :=
  (refl (ensures_of_ok h rfl)).bind fun _ heq => heq ▸ hf

end Alike

end Metered

/-- Programs over a state in `I`, which are one there and keep it. -/
def Coupled {κ C ε σ : Type} [AddMonoid C] [Purse κ C ε] {α : Type} (I : σ → Prop) (F : ε → Prop)
    (m n : StateT σ (Metered κ C ε) α) (P : α → Prop) : Prop :=
  ∀ s, I s → Metered.Alike F (m s) (n s) fun out => P out.1 ∧ I out.2

namespace Coupled

variable {κ C ε σ : Type} [AddMonoid C] [Purse κ C ε] {α β : Type}
variable {I : σ → Prop} {F : ε → Prop} {P Q : α → Prop} {R : β → Prop}
  {m n : StateT σ (Metered κ C ε) α} {f g : α → StateT σ (Metered κ C ε) β}

theorem pure {a : α} (h : P a) :
    Coupled I F (Pure.pure a : StateT σ (Metered κ C ε) α) (Pure.pure a) P :=
  fun _ hs => Metered.Alike.pure ⟨h, hs⟩

theorem mono (h : Coupled I F m n P) (hP : ∀ a, P a → Q a) : Coupled I F m n Q :=
  fun s hs => (h s hs).mono fun _ ha => ⟨hP _ ha.1, ha.2⟩

theorem bind (h : Coupled I F m n P) (hf : ∀ a, P a → Coupled I F (f a) (g a) R) :
    Coupled I F (m >>= f) (n >>= g) R :=
  fun s hs => (h s hs).bind fun out hout => hf out.1 hout.1 out.2 hout.2

/-- A computation without the state. -/
theorem lift {c : Metered κ C ε α} (h : c.Ensures P F) :
    Coupled I F (liftM c : StateT σ (Metered κ C ε) α) (liftM c) P :=
  fun _ hs => (Metered.Alike.refl h).bind fun _ ha => Metered.Alike.pure ⟨ha, hs⟩

/-- It is out of the way where it succeeds. -/
theorem lift_bind {c : Metered κ C ε α} {a : α} (h : c.result = .ok a)
    (hf : Coupled I F (f a) (g a) R) : Coupled I F (liftM c >>= f) (liftM c >>= g) R :=
  (lift (Metered.ensures_of_ok h rfl)).bind fun _ heq => heq ▸ hf

/-- The state can be read. -/
theorem get_bind {f g : σ → StateT σ (Metered κ C ε) β} (h : ∀ s, I s → Coupled I F (f s) (g s) R) :
    Coupled I F (get >>= f) (get >>= g) R :=
  fun s hs => h s hs s hs

theorem ite {c : Prop} [Decidable c] {m' n' : StateT σ (Metered κ C ε) α}
    (h : c → Coupled I F m n P) (h' : ¬ c → Coupled I F m' n' P) :
    Coupled I F (if c then m else m') (if c then n else n') P := by
  by_cases hc : c
  · rw [if_pos hc, if_pos hc]
    exact h hc
  · rw [if_neg hc, if_neg hc]
    exact h' hc

end Coupled

section watch

variable {κ C ε σ : Type} [AddMonoid C] [Purse κ C ε] {α : Type}

/-- A program that raises an alarm when it starts outside `pre`, or ends outside `post`. -/
def watch (pre : σ → Prop) [DecidablePred pre] (post : σ → σ → Prop) [DecidableRel post]
    (alarm : ε) (m : StateT σ (Metered κ C ε) α) : StateT σ (Metered κ C ε) α := fun s =>
  if pre s then do
    let out ← m s
    if post s out.2 then pure out else Metered.fail alarm
  else
    Metered.fail alarm

/-- The alarm is not raised by a program that stays inside. -/
theorem Coupled.of_watch {I : σ → Prop} {F : ε → Prop} {P : α → Prop}
    {pre : σ → Prop} [DecidablePred pre] {post : σ → σ → Prop} [DecidableRel post] {alarm : ε}
    {m : StateT σ (Metered κ C ε) α} (hpre : ∀ s, I s → pre s)
    (h : ∀ s, I s → (m s).Ensures (fun out => P out.1 ∧ I out.2 ∧ post s out.2) F) :
    Coupled I F (watch pre post alarm m) m P := by
  intro s hs
  have hm := h s hs
  refine ⟨?_, hm.mono (fun _ hout => ⟨hout.1, hout.2.1⟩) fun _ he => he⟩
  have hrest : (m s >>= fun out => if post s out.2 then Pure.pure out else Metered.fail alarm)
      = m s >>= Pure.pure := by
    refine Metered.bind_congr_ok fun out hout => ?_
    exact if_pos (hm.ok hout).2.2
  rw [watch, if_pos (hpre s hs), hrest, bind_pure]

end watch
