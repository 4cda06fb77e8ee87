/-
Parsers that read a cursor front to back.

A parser here is a state transformer over a cursor, in the metered monad.  What it does
is said in terms of the tokens in front of the cursor, in three steps.

  * `Decodes p word a`: wherever `word` lies ahead, `p` reads exactly it and yields `a`.
  * `Starves p word`: where only a proper prefix of `word` is left, `p` fails.
  * `Local p`: every success of `p` comes from a word it decodes and starves on, so
    what follows the word, and what precedes it, had no part in the outcome.

Each is closed under sequencing, so a grammar written as a product of languages is
checked against a parser written as a sequence of reads factor by factor: that is
`Parses`.  A local parser accepts a prefix code: `Local.complete` is the statement
that a word it uses up has no proper prefix that parses, and that a longer input is
left with what was added.

`Alike` compares two parsers instead of two inputs: where both succeed they read the
same word, as parsers do that differ in what they refuse.
-/
import Mathlib.Computability.Language
import Un7z.Lib.Metered

/-- A position in a sequence of tokens: what lies ahead, and which positions can occur. -/
class Cursor (σ : Type) (τ : outParam Type) where
  rest : σ → List τ
  Valid : σ → Prop

namespace Cursor

variable {κ C ε σ τ α β : Type} [AddMonoid C] [Purse κ C ε] [Cursor σ τ]

/-- Where `word` lies ahead, `p` reads it and nothing else, and yields `a`. -/
def Decodes (p : StateT σ (Metered κ C ε) α) (word : List τ) (a : α) : Prop :=
  ∀ s tail, Valid s → rest s = word ++ tail →
    ∃ s', (p s).result = .ok (a, s') ∧ Valid s' ∧ rest s' = tail

/-- Where less than `word` is left, `p` fails. -/
def Starves (p : StateT σ (Metered κ C ε) α) (word : List τ) : Prop :=
  ∀ s, Valid s → rest s <+: word → rest s ≠ word → ∃ e, (p s).result = .error e

/-- A success of `p` depends on the word it reads and on nothing else. -/
def Local (p : StateT σ (Metered κ C ε) α) : Prop :=
  ∀ s a s', Valid s → (p s).result = .ok (a, s') →
    Valid s' ∧ ∃ word, rest s = word ++ rest s' ∧ Decodes p word a ∧ Starves p word

/-- Every word of the language decodes to `a`. -/
def Parses (p : StateT σ (Metered κ C ε) α) (language : Language τ) (a : α) : Prop :=
  ∀ word ∈ language, Decodes p word a

/-! ### Running a sequence -/

theorem result_bind_ok {p : StateT σ (Metered κ C ε) α} {f : α → StateT σ (Metered κ C ε) β}
    {s s' : σ} {a : α} (h : (p s).result = .ok (a, s')) :
    ((p >>= f) s).result = (f a s').result :=
  Metered.result_bind_ok h

/-- What comes first may be replaced by what has the same outcome, wherever it starts. -/
theorem result_bind_congr {p q : StateT σ (Metered κ C ε) α} {f : α → StateT σ (Metered κ C ε) β}
    {s t : σ} (h : (p s).result = (q t).result) : ((p >>= f) s).result = ((q >>= f) t).result := by
  show Metered.resultAfter (p s).result _ = Metered.resultAfter (q t).result _
  rw [h]

theorem result_bind_error {p : StateT σ (Metered κ C ε) α}
    {f : α → StateT σ (Metered κ C ε) β} {s : σ} {e : ε} (h : (p s).result = .error e) :
    ((p >>= f) s).result = .error e :=
  Metered.result_bind_error h

theorem bind_eq_ok {p : StateT σ (Metered κ C ε) α} {f : α → StateT σ (Metered κ C ε) β}
    {s s'' : σ} {b : β} :
    ((p >>= f) s).result = .ok (b, s'') ↔
      ∃ a s', (p s).result = .ok (a, s') ∧ (f a s').result = .ok (b, s'') :=
  Metered.bind_eq_ok.trans Prod.exists

theorem pure_eq_ok {s s' : σ} {a b : α} :
    ((pure a : StateT σ (Metered κ C ε) α) s).result = .ok (b, s') ↔ a = b ∧ s = s' :=
  (Except.ok.injEq (a, s) (b, s')).to_iff.trans Prod.mk_inj

/-- A computation without the cursor leaves it where it is. -/
theorem result_lift (m : Metered κ C ε α) (s : σ) :
    ((liftM m : StateT σ (Metered κ C ε) α) s).result = m.result.map (·, s) :=
  Metered.result_map (·, s) m

theorem lift_eq_ok {m : Metered κ C ε α} {s s' : σ} {a : α} :
    ((liftM m : StateT σ (Metered κ C ε) α) s).result = .ok (a, s') ↔
      m.result = .ok a ∧ s' = s := by
  rw [result_lift]
  cases m.result <;> simp [Except.map, eq_comm]

/-- And is out of the way when it succeeds. -/
theorem result_lift_bind {m : Metered κ C ε α} {f : α → StateT σ (Metered κ C ε) β} {s : σ} {a : α}
    (h : m.result = .ok a) : ((liftM m >>= f) s).result = (f a s).result :=
  result_bind_ok (lift_eq_ok.mpr ⟨h, rfl⟩)

theorem lift_bind_eq_ok {m : Metered κ C ε α} {f : α → StateT σ (Metered κ C ε) β} {s s'' : σ} {b : β} :
    ((liftM m >>= f) s).result = .ok (b, s'') ↔
      ∃ a, m.result = .ok a ∧ (f a s).result = .ok (b, s'') := by
  rw [bind_eq_ok]
  constructor
  · rintro ⟨a, s', hlift, hf⟩
    obtain ⟨hm, rfl⟩ := lift_eq_ok.mp hlift
    exact ⟨a, hm, hf⟩
  · rintro ⟨a, hm, hf⟩
    exact ⟨a, s, lift_eq_ok.mpr ⟨hm, rfl⟩, hf⟩

/-! ### Decoding -/

theorem Decodes.pure (a : α) : Decodes (pure a : StateT σ (Metered κ C ε) α) [] a :=
  fun s _ hs hrest => ⟨s, rfl, hs, hrest⟩

theorem Decodes.lift {m : Metered κ C ε α} {a : α} (h : m.result = .ok a) :
    Decodes (liftM m : StateT σ (Metered κ C ε) α) [] a :=
  fun s _ hs hrest => ⟨s, by rw [result_lift, h]; rfl, hs, hrest⟩

/-- Decoding composes: what the first parser leaves is what the second one reads. -/
theorem Decodes.bind {p : StateT σ (Metered κ C ε) α} {f : α → StateT σ (Metered κ C ε) β}
    {v w : List τ} {a : α} {b : β} (hp : Decodes p v a) (hf : Decodes (f a) w b) :
    Decodes (p >>= f) (v ++ w) b := by
  intro s tail hs hrest
  obtain ⟨s', hrun, hs', hrest'⟩ := hp s (w ++ tail) hs (by rw [hrest, List.append_assoc])
  obtain ⟨s'', hrun', hs'', hrest''⟩ := hf s' tail hs' hrest'
  exact ⟨s'', by rw [result_bind_ok hrun, hrun'], hs'', hrest''⟩

/-- A check that reads nothing stands in front for free. -/
theorem Decodes.liftBind {m : Metered κ C ε α} {f : α → StateT σ (Metered κ C ε) β}
    {w : List τ} {a : α} {b : β} (h : m.result = .ok a) (hf : Decodes (f a) w b) :
    Decodes (liftM m >>= f) w b := (Decodes.lift h).bind hf

/-! ### Words that have been read -/

/-- The cursor has moved over a word. -/
def Passes (s s' : σ) (word : List τ) : Prop := Valid s' ∧ rest s = word ++ rest s'

namespace Passes

variable {s s' s'' : σ} {v w : List τ}

theorem refl (hs : Valid s) : Passes s s [] := ⟨hs, rfl⟩

/-- One word behind the other. -/
theorem trans (h : Passes s s' v) (h' : Passes s' s'' w) : Passes s s'' (v ++ w) :=
  ⟨h'.1, by rw [h.2, h'.2, List.append_assoc]⟩

theorem length_rest (h : Passes s s' v) : (rest s).length = v.length + (rest s').length := by
  rw [h.2, List.length_append]

end Passes

/-- What decodes the word that lies ahead has read it. -/
theorem Decodes.passes {p : StateT σ (Metered κ C ε) α} {word tail : List τ} {a b : α} {s s' : σ}
    (hp : Decodes p word a) (hs : Valid s) (hrest : rest s = word ++ tail)
    (h : (p s).result = .ok (b, s')) : a = b ∧ Passes s s' word := by
  obtain ⟨t, hrun, ht, htail⟩ := hp s tail hs hrest
  obtain ⟨rfl, rfl⟩ := Prod.mk.inj (Except.ok.inj (hrun.symm.trans h))
  exact ⟨rfl, ht, by rw [hrest, htail]⟩

/-! ### Languages -/

theorem Parses.pure (a : α) : Parses (pure a : StateT σ (Metered κ C ε) α) 1 a := by
  intro word hword
  rw [(Language.mem_one word).mp hword]
  exact Decodes.pure a

theorem Parses.bind {p : StateT σ (Metered κ C ε) α} {f : α → StateT σ (Metered κ C ε) β}
    {L M : Language τ} {a : α} {b : β} (hp : Parses p L a) (hf : Parses (f a) M b) :
    Parses (p >>= f) (L * M) b := by
  intro word hword
  obtain ⟨v, hv, w, hw, rfl⟩ := Language.mem_mul.mp hword
  exact (hp v hv).bind (hf w hw)

/-- The last parser of a sequence may read nothing. -/
theorem Parses.bindOne {p : StateT σ (Metered κ C ε) α} {f : α → StateT σ (Metered κ C ε) β}
    {L : Language τ} {a : α} {b : β} (hp : Parses p L a) (hf : Parses (f a) 1 b) :
    Parses (p >>= f) L b := by
  rw [← mul_one L]
  exact hp.bind hf

/-- A check that reads nothing stands in front of a parser for free. -/
theorem Parses.liftBind {m : Metered κ C ε α} {f : α → StateT σ (Metered κ C ε) β}
    {M : Language τ} {a : α} {b : β} (h : m.result = .ok a) (hf : Parses (f a) M b) :
    Parses (liftM m >>= f) M b :=
  fun word hword => (Decodes.lift h).bind (hf word hword)

/-- A check may also stand behind a read, before its value is used. -/
theorem Parses.bindLift {γ : Type} {p : StateT σ (Metered κ C ε) α} {m : Metered κ C ε γ}
    {f : α → γ → StateT σ (Metered κ C ε) β} {M : Language τ} {c : γ} {b : β}
    (h : m.result = .ok c) (hf : Parses (p >>= fun a => f a c) M b) :
    Parses (p >>= fun a => liftM m >>= f a) M b := by
  intro word hword s tail hs hrest
  obtain ⟨s', hrun, hs', hrest'⟩ := hf word hword s tail hs hrest
  obtain ⟨a, t, hp, hft⟩ := bind_eq_ok.mp hrun
  refine ⟨s', ?_, hs', hrest'⟩
  have hlift : ((liftM m : StateT σ (Metered κ C ε) γ) t).result = .ok (c, t) := by
    rw [result_lift, h]
    rfl
  rw [result_bind_ok hp, result_bind_ok hlift, hft]

theorem Parses.lift {m : Metered κ C ε α} {a : α} (h : m.result = .ok a) :
    Parses (liftM m : StateT σ (Metered κ C ε) α) 1 a := by
  intro word hword
  rw [(Language.mem_one word).mp hword]
  exact Decodes.lift h

theorem Parses.add {p : StateT σ (Metered κ C ε) α} {L M : Language τ} {a : α}
    (hL : Parses p L a) (hM : Parses p M a) : Parses p (L + M) a := by
  intro word hword
  rcases (Language.mem_add L M word).mp hword with h | h
  · exact hL word h
  · exact hM word h

/-! ### Locality -/

theorem Local.pure (a : α) : Local (pure a : StateT σ (Metered κ C ε) α) := by
  intro s b s' hs h
  obtain ⟨rfl, rfl⟩ : a = b ∧ s = s' := by
    rw [← Prod.mk.injEq]
    exact Except.ok.inj h
  refine ⟨hs, [], rfl, Decodes.pure a, fun t _ hpre hne => ?_⟩
  exact absurd (List.prefix_nil.mp hpre) hne

theorem Local.lift (m : Metered κ C ε α) : Local (liftM m : StateT σ (Metered κ C ε) α) := by
  intro s a s' hs h
  rw [result_lift] at h
  cases hm : m.result with
  | error e =>
      rw [hm] at h
      exact absurd h (by simp [Except.map])
  | ok b =>
      rw [hm] at h
      obtain ⟨rfl, rfl⟩ : b = a ∧ s = s' := by
        rw [← Prod.mk.injEq]
        exact Except.ok.inj h
      refine ⟨hs, [], rfl, Decodes.lift hm, fun t _ hpre hne => ?_⟩
      exact absurd (List.prefix_nil.mp hpre) hne

/-- Locality composes: a sequence starves in its first word, or in its second. -/
theorem Local.bind {p : StateT σ (Metered κ C ε) α} {f : α → StateT σ (Metered κ C ε) β}
    (hp : Local p) (hf : ∀ a, Local (f a)) : Local (p >>= f) := by
  intro s b s'' hs h
  obtain ⟨a, s', hrun, hrun'⟩ := bind_eq_ok.mp h
  obtain ⟨hs', v, hrest, hdec, hstarve⟩ := hp s a s' hs hrun
  obtain ⟨hs'', w, hrest', hdec', hstarve'⟩ := hf a s' b s'' hs' hrun'
  refine ⟨hs'', v ++ w, by rw [hrest, hrest', List.append_assoc], hdec.bind hdec', ?_⟩
  intro t ht hpre hne
  by_cases hv : v <+: rest t
  · -- the first word is all there: the second one is cut short
    obtain ⟨u, hu⟩ := hv
    obtain ⟨t', htrun, ht', hrest''⟩ := hdec t u ht hu.symm
    rw [← hu] at hpre hne
    have hcut : u <+: w := (List.prefix_append_right_inj v).mp hpre
    obtain ⟨e, he⟩ := hstarve' t' ht' (hrest'' ▸ hcut)
      (fun heq => hne (by rw [← heq, hrest'']))
    exact ⟨e, by rw [result_bind_ok htrun, he]⟩
  · have hcut : rest t <+: v := by
      rcases List.prefix_or_prefix_of_prefix hpre (List.prefix_append v w) with hc | hc
      · exact hc
      · exact absurd hc hv
    obtain ⟨e, he⟩ := hstarve t ht hcut (fun heq => hv (heq ▸ List.prefix_rfl))
    exact ⟨e, result_bind_error he⟩

theorem Local.ite {c : Prop} [Decidable c] {p q : StateT σ (Metered κ C ε) α}
    (hp : Local p) (hq : Local q) : Local (if c then p else q) := by
  split
  · exact hp
  · exact hq

/-- A local parser accepts a prefix code. -/
theorem Local.complete {p : StateT σ (Metered κ C ε) α} (hp : Local p) {s s' : σ} {a : α}
    (hs : Valid s) (h : (p s).result = .ok (a, s')) (hend : rest s' = []) :
    (∀ t, Valid t → rest t <+: rest s → rest t ≠ rest s → ∃ e, (p t).result = .error e) ∧
      ∀ t tail, Valid t → rest t = rest s ++ tail →
        ∃ t', (p t).result = .ok (a, t') ∧ rest t' = tail := by
  obtain ⟨-, word, hrest, hdec, hstarve⟩ := hp s a s' hs h
  rw [hend, List.append_nil] at hrest
  refine ⟨fun t ht hpre hne => ?_, fun t tail ht htail => ?_⟩
  · exact hstarve t ht (hrest ▸ hpre) (hrest ▸ hne)
  · obtain ⟨t', hrun, -, hrest'⟩ := hdec t tail ht (hrest ▸ htail)
    exact ⟨t', hrun, hrest'⟩

/-! ### Ways to fail -/

/-- Wherever it starts, every error of `p` is one of these. -/
def FailsIn (F : ε → Prop) (p : StateT σ (Metered κ C ε) α) : Prop :=
  ∀ s, Metered.FailsIn F (p s)

namespace FailsIn

variable {F : ε → Prop} {p : StateT σ (Metered κ C ε) α}

@[grind ←] theorem pure (a : α) : FailsIn F (Pure.pure a : StateT σ (Metered κ C ε) α) :=
  fun s => Metered.FailsIn.pure (a, s)

@[grind ←] theorem lift {m : Metered κ C ε α} (h : Metered.FailsIn F m) :
    FailsIn F (liftM m : StateT σ (Metered κ C ε) α) :=
  fun s => h.map (g := (·, s))

@[grind ←] theorem bind {f : α → StateT σ (Metered κ C ε) β} (h : FailsIn F p)
    (hf : ∀ a, FailsIn F (f a)) : FailsIn F (p >>= f) :=
  fun s => (h s).bind fun out => hf out.1 out.2

@[grind ←] theorem map {g : α → β} (h : FailsIn F p) : FailsIn F (g <$> p) :=
  fun s => (h s).bind fun _ => Metered.FailsIn.pure _

theorem ite {c : Prop} [Decidable c] {q : StateT σ (Metered κ C ε) α}
    (hp : FailsIn F p) (hq : FailsIn F q) : FailsIn F (if c then p else q) := by
  split
  · exact hp
  · exact hq

@[grind ←] theorem run (h : FailsIn F p) (s : σ) : Metered.FailsIn F (p.run s) := h s

end FailsIn

/-! ### Two parsers at one cursor -/

/-- Where both succeed they stop at the same place, with values that are related. -/
def Alike (R : α → β → Prop) (p : StateT σ (Metered κ C ε) α) (q : StateT σ (Metered κ C ε) β) :
    Prop :=
  ∀ s a s' b t', (p s).result = .ok (a, s') → (q s).result = .ok (b, t') → R a b ∧ s' = t'

/-- A parser has one outcome. -/
theorem ok_unique {p : StateT σ (Metered κ C ε) α} {s s' t' : σ} {a b : α}
    (h : (p s).result = .ok (a, s')) (h' : (p s).result = .ok (b, t')) : a = b ∧ s' = t' :=
  Prod.mk.inj (Except.ok.inj (h.symm.trans h'))

theorem Alike.refl (p : StateT σ (Metered κ C ε) α) : Alike Eq p p :=
  fun _ _ _ _ _ => ok_unique

theorem Alike.pure {R : α → β → Prop} {a : α} {b : β} (h : R a b) :
    Alike R (pure a : StateT σ (Metered κ C ε) α) (pure b) := by
  intro s a' s' b' t' hp hq
  obtain ⟨rfl, rfl⟩ := pure_eq_ok.mp hp
  obtain ⟨rfl, rfl⟩ := pure_eq_ok.mp hq
  exact ⟨h, rfl⟩

theorem Alike.lift {R : α → β → Prop} {m : Metered κ C ε α} {n : Metered κ C ε β}
    (h : ∀ a b, m.result = .ok a → n.result = .ok b → R a b) :
    Alike R (liftM m : StateT σ (Metered κ C ε) α) (liftM n) := by
  intro s a s' b t' hp hq
  obtain ⟨ha, rfl⟩ := lift_eq_ok.mp hp
  obtain ⟨hb, rfl⟩ := lift_eq_ok.mp hq
  exact ⟨h a b ha hb, rfl⟩

theorem Alike.bind {α' β' : Type} {R : α → β → Prop} {S : α' → β' → Prop}
    {p : StateT σ (Metered κ C ε) α} {q : StateT σ (Metered κ C ε) β}
    {f : α → StateT σ (Metered κ C ε) α'} {g : β → StateT σ (Metered κ C ε) β'}
    (h : Alike R p q) (hf : ∀ a b, R a b → Alike S (f a) (g b)) : Alike S (p >>= f) (q >>= g) := by
  intro s a' s'' b' t'' hp hq
  obtain ⟨a, s', hp, hfa⟩ := bind_eq_ok.mp hp
  obtain ⟨b, t', hq, hgb⟩ := bind_eq_ok.mp hq
  obtain ⟨hab, rfl⟩ := h s a s' b t' hp hq
  exact hf a b hab s' a' s'' b' t'' hfa hgb

/-- The same parser in front. -/
theorem Alike.next {α' β' : Type} {S : α' → β' → Prop} {p : StateT σ (Metered κ C ε) α}
    {f : α → StateT σ (Metered κ C ε) α'} {g : α → StateT σ (Metered κ C ε) β'}
    (hf : ∀ a, Alike S (f a) (g a)) : Alike S (p >>= f) (p >>= g) :=
  (Alike.refl p).bind fun a _ hab => hab ▸ hf a

/-- Two checks in front that may differ in what they refuse, and in what they count. -/
theorem Alike.checked {γ δ : Type} {S : α → β → Prop} {m : Metered κ C ε γ} {n : Metered κ C ε δ}
    {f : γ → StateT σ (Metered κ C ε) α} {g : δ → StateT σ (Metered κ C ε) β}
    (hf : ∀ a b, Alike S (f a) (g b)) : Alike S (liftM m >>= f) (liftM n >>= g) :=
  (Alike.lift (R := fun _ _ => True) fun _ _ _ _ => trivial).bind fun a b _ => hf a b

theorem Alike.ite {R : α → β → Prop} {c : Prop} [Decidable c]
    {p p' : StateT σ (Metered κ C ε) α} {q q' : StateT σ (Metered κ C ε) β}
    (h : Alike R p q) (h' : Alike R p' q') : Alike R (if c then p else p') (if c then q else q') := by
  by_cases hc : c
  · rwa [if_pos hc, if_pos hc]
  · rwa [if_neg hc, if_neg hc]

end Cursor
