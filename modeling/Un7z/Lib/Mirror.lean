/-
Two runs side by side.

That an earlier part of a run has no influence on a later one is a statement about two
runs: of one program from two states, or of one program under two readings of its
parameters.  Here only successes are carried over, from a first run to a second.

  * `Metered.Mirrors` compares two computations: whatever the first returns, the second
    returns a counterpart of it.
  * `Mirrored` compares two programs over states that are related, and stay so.
  * `Cursor.Echoes` compares two parsers in front of one sequence of tokens: what the first
    reads there, the second reads wherever it stands.

Each has the rules of a triple.  The last value may be one that is accepted later on, which
`Echoes` takes as an assumption, so that a parser can be held to a limit that is only known
from where the whole run ends.
-/
import Un7z.Lib.Cursor

namespace Metered

variable {κ C ε : Type} [AddMonoid C] [Purse κ C ε] {α α' β β' : Type}

/-- Whatever the first computation returns, the second returns its counterpart. -/
def Mirrors (P : α → α' → Prop) (m : Metered κ C ε α) (n : Metered κ C ε α') : Prop :=
  ∀ a, m.result = .ok a → ∃ b, n.result = .ok b ∧ P a b

namespace Mirrors

variable {P Q : α → α' → Prop} {R : β → β' → Prop} {m : Metered κ C ε α} {n : Metered κ C ε α'}
  {f : α → Metered κ C ε β} {g : α' → Metered κ C ε β'}

theorem refl (m : Metered κ C ε α) : Mirrors Eq m m := fun a ha => ⟨a, ha, rfl⟩

theorem pure {a : α} {b : α'} (h : P a b) :
    Mirrors P (Pure.pure a : Metered κ C ε α) (Pure.pure b) := by
  intro a' ha'
  obtain rfl : a = a' := Except.ok.inj ha'
  exact ⟨b, rfl, h⟩

/-- A computation that fails has nothing to be mirrored. -/
theorem of_error {e : ε} (h : m.result = .error e) : Mirrors P m n := by
  intro a ha
  rw [h] at ha
  cases ha

theorem of_ok {a : α} {b : α'} (hm : m.result = .ok a) (hn : n.result = .ok b) (h : P a b) :
    Mirrors P m n := by
  intro a' ha'
  rw [hm] at ha'
  obtain rfl : a = a' := Except.ok.inj ha'
  exact ⟨b, hn, h⟩

theorem mono (h : Mirrors P m n) (hP : ∀ a b, P a b → Q a b) : Mirrors Q m n := by
  intro a ha
  obtain ⟨b, hb, hab⟩ := h a ha
  exact ⟨b, hb, hP a b hab⟩

/-- The rule of sequencing. -/
theorem bind (h : Mirrors P m n) (hf : ∀ a b, P a b → Mirrors R (f a) (g b)) :
    Mirrors R (m >>= f) (n >>= g) := by
  intro c hc
  obtain ⟨a, ha, hfa⟩ := bind_eq_ok.mp hc
  obtain ⟨b, hb, hab⟩ := h a ha
  obtain ⟨d, hd, hcd⟩ := hf a b hab c hfa
  exact ⟨d, bind_eq_ok.mpr ⟨b, hb, hd⟩, hcd⟩

/-- The same computation in front of both. -/
theorem next {f : α → Metered κ C ε β} {g : α → Metered κ C ε β'}
    (hf : ∀ a, m.result = .ok a → Mirrors R (f a) (g a)) : Mirrors R (m >>= f) (m >>= g) := by
  intro c hc
  obtain ⟨a, ha, hfa⟩ := bind_eq_ok.mp hc
  obtain ⟨d, hd, hcd⟩ := hf a ha c hfa
  exact ⟨d, bind_eq_ok.mpr ⟨a, ha, hd⟩, hcd⟩

theorem ite {c d : Prop} [Decidable c] [Decidable d] (hcd : c ↔ d) {m' : Metered κ C ε α}
    {n' : Metered κ C ε α'} (h : c → Mirrors P m n) (h' : ¬ c → Mirrors P m' n') :
    Mirrors P (if c then m else m') (if d then n else n') := by
  by_cases hc : c
  · rw [if_pos hc, if_pos (hcd.mp hc)]
    exact h hc
  · rw [if_neg hc, if_neg (mt hcd.mpr hc)]
    exact h' hc

end Mirrors

end Metered

/-- Programs over states in `R`, which return values in `P` and leave states in `R`. -/
def Mirrored {κ C ε σ τ : Type} [AddMonoid C] [Purse κ C ε] {α α' : Type} (R : σ → τ → Prop)
    (P : α → α' → Prop) (m : StateT σ (Metered κ C ε) α) (n : StateT τ (Metered κ C ε) α') : Prop :=
  ∀ s t, R s t → Metered.Mirrors (fun a b => P a.1 b.1 ∧ R a.2 b.2) (m s) (n t)

namespace Mirrored

variable {κ C ε σ τ : Type} [AddMonoid C] [Purse κ C ε] {α α' β β' γ : Type}
variable {R : σ → τ → Prop} {P Q : α → α' → Prop} {S : β → β' → Prop}
  {m : StateT σ (Metered κ C ε) α} {n : StateT τ (Metered κ C ε) α'}

theorem pure {a : α} {b : α'} (h : P a b) :
    Mirrored R P (Pure.pure a : StateT σ (Metered κ C ε) α) (Pure.pure b) :=
  fun _ _ hst => Metered.Mirrors.pure ⟨h, hst⟩

theorem mono (h : Mirrored R P m n) (hP : ∀ a b, P a b → Q a b) : Mirrored R Q m n :=
  fun s t hst => (h s t hst).mono fun _ _ hab => ⟨hP _ _ hab.1, hab.2⟩

theorem bind {f : α → StateT σ (Metered κ C ε) β} {g : α' → StateT τ (Metered κ C ε) β'}
    (h : Mirrored R P m n) (hf : ∀ a b, P a b → Mirrored R S (f a) (g b)) :
    Mirrored R S (m >>= f) (n >>= g) :=
  fun s t hst => (h s t hst).bind fun a b hab => hf a.1 b.1 hab.1 a.2 b.2 hab.2

/-- Two programs in front that return the same value. -/
theorem bind_eq {n : StateT τ (Metered κ C ε) α} {f : α → StateT σ (Metered κ C ε) β}
    {g : α → StateT τ (Metered κ C ε) β'} (h : Mirrored R Eq m n)
    (hf : ∀ a, Mirrored R S (f a) (g a)) : Mirrored R S (m >>= f) (n >>= g) :=
  h.bind fun a _ hab => hab ▸ hf a

theorem lift {c : Metered κ C ε α} {d : Metered κ C ε α'} (h : c.Mirrors P d) :
    Mirrored R P (liftM c : StateT σ (Metered κ C ε) α) (liftM d) :=
  fun _ _ hst => h.bind fun _ _ hab => Metered.Mirrors.pure ⟨hab, hst⟩

/-- One computation without the state, in front of both. -/
theorem lift_next {c : Metered κ C ε γ} {f : γ → StateT σ (Metered κ C ε) β}
    {g : γ → StateT τ (Metered κ C ε) β'} (hf : ∀ a, c.result = .ok a → Mirrored R S (f a) (g a)) :
    Mirrored R S (liftM c >>= f) (liftM c >>= g) := by
  intro s t hst
  have hc : Mirrored R (fun a b => a = b ∧ c.result = .ok a)
      (liftM c : StateT σ (Metered κ C ε) γ) (liftM c : StateT τ (Metered κ C ε) γ) :=
    lift fun a ha => ⟨a, ha, rfl, ha⟩
  exact hc.bind (fun a b hab => hab.1 ▸ hf a hab.2) s t hst

/-- A program that fails has nothing to be mirrored. -/
theorem of_error (h : ∀ s : σ, ∃ e, (m s).result = .error e) : Mirrored R P m n := fun s _ _ => by
  obtain ⟨e, he⟩ := h s
  exact Metered.Mirrors.of_error he

theorem ite_iff {c d : Prop} [Decidable c] [Decidable d] (hcd : c ↔ d)
    {m' : StateT σ (Metered κ C ε) α} {n' : StateT τ (Metered κ C ε) α'}
    (h : c → Mirrored R P m n) (h' : ¬ c → Mirrored R P m' n') :
    Mirrored R P (if c then m else m') (if d then n else n') := by
  by_cases hc : c
  · rw [if_pos hc, if_pos (hcd.mp hc)]
    exact h hc
  · rw [if_neg hc, if_neg (mt hcd.mpr hc)]
    exact h' hc

theorem ite {c : Prop} [Decidable c] {m' : StateT σ (Metered κ C ε) α}
    {n' : StateT τ (Metered κ C ε) α'} (h : c → Mirrored R P m n)
    (h' : ¬ c → Mirrored R P m' n') :
    Mirrored R P (if c then m else m') (if c then n else n') := ite_iff Iff.rfl h h'

end Mirrored

namespace Cursor

variable {κ C ε σ τ : Type} [AddMonoid C] [Purse κ C ε] [Cursor σ τ] {α α' β β' γ : Type}

/-- In front of `ahead`, where `p` returns a value in `A`, it has read a word that `q` reads
wherever it lies ahead, for a value that is related. -/
def Echoes (ahead : List τ) (A : α → Prop) (P : α → α' → Prop) (p : StateT σ (Metered κ C ε) α)
    (q : StateT σ (Metered κ C ε) α') : Prop :=
  ∀ s a s', Valid s → rest s = ahead → (p s).result = .ok (a, s') → A a →
    ∃ word b, Valid s' ∧ ahead = word ++ rest s' ∧ Decodes q word b ∧ P a b

namespace Echoes

variable {ahead : List τ} {A : α → Prop} {B : β → Prop} {P : α → α' → Prop} {R : β → β' → Prop}
  {p : StateT σ (Metered κ C ε) α} {q : StateT σ (Metered κ C ε) α'}

theorem pure {a : α} {b : α'} (h : P a b) :
    Echoes ahead A P (Pure.pure a : StateT σ (Metered κ C ε) α) (Pure.pure b) := by
  rintro s a' s' hs rfl hrun -
  obtain ⟨rfl, rfl⟩ := pure_eq_ok.mp hrun
  exact ⟨[], b, hs, rfl, Decodes.pure b, h⟩

/-- The rule of sequencing: the second parser stands in front of what the first one leaves. -/
theorem bind {f : α → StateT σ (Metered κ C ε) β} {g : α' → StateT σ (Metered κ C ε) β'}
    (h : Echoes ahead (fun _ => True) P p q)
    (hf : ∀ a b word tail, ahead = word ++ tail → P a b → Echoes tail B R (f a) (g b)) :
    Echoes ahead B R (p >>= f) (q >>= g) := by
  intro s c s'' hs hahead hrun hc
  obtain ⟨a, s', hp, hfa⟩ := bind_eq_ok.mp hrun
  obtain ⟨word, b, hs', hword, hdecodes, hab⟩ := h s a s' hs hahead hp trivial
  obtain ⟨word', d, hs'', hword', hdecodes', hcd⟩ :=
    hf a b word (rest s') hword hab s' c s'' hs' rfl hfa hc
  refine ⟨word ++ word', d, hs'', ?_, hdecodes.bind hdecodes', hcd⟩
  rw [hword, hword', List.append_assoc]

/-- One computation without the cursor, in front of both. -/
theorem lift_next {c : Metered κ C ε γ} {f : γ → StateT σ (Metered κ C ε) β}
    {g : γ → StateT σ (Metered κ C ε) β'}
    (hf : ∀ a, c.result = .ok a → Echoes ahead B R (f a) (g a)) :
    Echoes ahead B R (liftM c >>= f) (liftM c >>= g) := by
  intro s b s' hs hahead hrun hb
  obtain ⟨a, t, hlift, hfa⟩ := bind_eq_ok.mp hrun
  obtain ⟨hc, rfl⟩ := lift_eq_ok.mp hlift
  obtain ⟨word, d, hs', hword, hdecodes, hbd⟩ := hf a hc t b s' hs hahead hfa hb
  exact ⟨word, d, hs', hword, hdecodes.liftBind hc, hbd⟩

/-- Two of them, the second a mirror of the first. -/
theorem lift {c : Metered κ C ε γ} {γ' : Type} {d : Metered κ C ε γ'} {S : γ → γ' → Prop}
    {f : γ → StateT σ (Metered κ C ε) β} {g : γ' → StateT σ (Metered κ C ε) β'}
    (h : c.Mirrors S d) (hf : ∀ a b, S a b → Echoes ahead B R (f a) (g b)) :
    Echoes ahead B R (liftM c >>= f) (liftM d >>= g) := by
  intro s b s' hs hahead hrun hb
  obtain ⟨a, t, hlift, hfa⟩ := bind_eq_ok.mp hrun
  obtain ⟨hc, rfl⟩ := lift_eq_ok.mp hlift
  obtain ⟨a', ha', haa⟩ := h a hc
  obtain ⟨word, b', hs', hword, hdecodes, hbb⟩ := hf a a' haa t b s' hs hahead hfa hb
  exact ⟨word, b', hs', hword, hdecodes.liftBind ha', hbb⟩

/-- The last step of a parser, which may count on the value it ends in. -/
theorem lift_last {c : Metered κ C ε γ} {γ' : Type} {d : Metered κ C ε γ'} (F : γ → α)
    (G : γ' → α')
    (h : ∀ a, c.result = .ok a → A (F a) → ∃ b, d.result = .ok b ∧ P (F a) (G b)) :
    Echoes ahead A P (liftM c >>= fun a => (Pure.pure (F a) : StateT σ (Metered κ C ε) α))
      (liftM d >>= fun b => Pure.pure (G b)) := by
  rintro s b s' hs rfl hrun hb
  obtain ⟨a, t, hlift, hfa⟩ := bind_eq_ok.mp hrun
  obtain ⟨hc, rfl⟩ := lift_eq_ok.mp hlift
  obtain ⟨rfl, rfl⟩ := pure_eq_ok.mp hfa
  obtain ⟨a', ha', hP⟩ := h a hc hb
  exact ⟨[], G a', hs, rfl, (Decodes.pure _).liftBind ha', hP⟩

/-- A parser that fails has nothing to be echoed. -/
theorem of_error (h : ∀ s : σ, ∃ e, (p s).result = .error e) : Echoes ahead A P p q := by
  intro s a s' _ _ hrun
  obtain ⟨e, he⟩ := h s
  rw [he] at hrun
  cases hrun

theorem ite {c : Prop} [Decidable c] {p' : StateT σ (Metered κ C ε) α}
    {q' : StateT σ (Metered κ C ε) α'} (h : c → Echoes ahead A P p q)
    (h' : ¬ c → Echoes ahead A P p' q') :
    Echoes ahead A P (if c then p else p') (if c then q else q') := by
  by_cases hc : c
  · rw [if_pos hc, if_pos hc]
    exact h hc
  · rw [if_neg hc, if_neg hc]
    exact h' hc

end Echoes

end Cursor
