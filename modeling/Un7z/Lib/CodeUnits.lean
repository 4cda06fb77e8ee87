/-
Two encodings of one text.

Where characters below a limit take one unit of their own value in either encoding, and
every other character takes one unit or more, none of them below the limit, the two
encodings can be compared without decoding them: they are `Aligned`.  What is asked of
values below the limit has the same answer on both sides, and both sides split into the
same pieces wherever they are split at such values.
-/
import Mathlib.Data.List.Forall2

namespace CodeUnits

/-! ### Splitting -/

theorem splitOnP_append {γ : Type} {p : γ → Bool} {word : List γ} (hword : ∀ c ∈ word, p c = false)
    (rest : List γ) : (word ++ rest).splitOnP p = (rest.splitOnP p).modifyHead (word ++ ·) := by
  induction word with
  | nil =>
      obtain ⟨head, tail, hsplit⟩ := List.exists_cons_of_ne_nil (List.splitOnP_ne_nil p rest)
      rw [List.nil_append, hsplit]
      rfl
  | cons c word ih =>
      obtain ⟨head, tail, hsplit⟩ := List.exists_cons_of_ne_nil (List.splitOnP_ne_nil p rest)
      rw [List.cons_append, List.splitOnP_cons_eq_if_modifyHead, hword c List.mem_cons_self,
        ih fun other hother => hword other (List.mem_cons_of_mem _ hother), hsplit]
      rfl

/-- Splitting at more places leaves a piece that holds none of them as it was: in front
if it stood there, and else behind. -/
theorem splitOnP_finer {γ : Type} {p q : γ → Bool} (hpq : ∀ c, p c = true → q c = true) (word : List γ)
    {piece other : List γ} {pieces others : List (List γ)} (hp : word.splitOnP p = piece :: pieces)
    (hq : word.splitOnP q = other :: others) :
    ((∀ c ∈ piece, q c = false) → piece = other) ∧
      ∀ later ∈ pieces, (∀ c ∈ later, q c = false) → later ∈ others := by
  induction word generalizing piece other pieces others with
  | nil =>
      injection hp with hpiece hpieces
      injection hq with hother hothers
      subst hpiece hpieces hother
      exact ⟨fun _ => rfl, fun later hlater => absurd hlater List.not_mem_nil⟩
  | cons c word ih =>
      obtain ⟨head, tail, hsplit⟩ := List.exists_cons_of_ne_nil (List.splitOnP_ne_nil p word)
      obtain ⟨head', tail', hsplit'⟩ := List.exists_cons_of_ne_nil (List.splitOnP_ne_nil q word)
      obtain ⟨hhead, htail⟩ := ih hsplit hsplit'
      rw [List.splitOnP_cons_eq_if_modifyHead, hsplit] at hp
      rw [List.splitOnP_cons_eq_if_modifyHead, hsplit'] at hq
      cases hpc : p c with
      | true =>
          rw [if_pos hpc] at hp
          rw [if_pos (hpq c hpc)] at hq
          injection hp with hpiece hpieces
          injection hq with hother hothers
          subst hpiece hpieces hother hothers
          refine ⟨fun _ => rfl, fun later hlater hfree => ?_⟩
          rcases List.mem_cons.mp hlater with rfl | hlater
          · rw [hhead hfree]
            exact List.mem_cons_self
          · exact List.mem_cons_of_mem _ (htail later hlater hfree)
      | false =>
          rw [if_neg (by rw [hpc]; exact Bool.false_ne_true)] at hp
          injection hp with hpiece hpieces
          subst hpiece hpieces
          cases hqc : q c with
          | true =>
              rw [if_pos hqc] at hq
              injection hq with hother hothers
              subst hother hothers
              refine ⟨fun hfree => ?_, fun later hlater hfree =>
                List.mem_cons_of_mem _ (htail later hlater hfree)⟩
              exact absurd (hqc.symm.trans (hfree c List.mem_cons_self)) Bool.noConfusion
          | false =>
              rw [if_neg (by rw [hqc]; exact Bool.false_ne_true)] at hq
              injection hq with hother hothers
              subst hother hothers
              refine ⟨fun hfree => ?_, htail⟩
              rw [hhead fun d hd => hfree d (List.mem_cons_of_mem _ hd)]

theorem mem_splitOnP_of_finer {γ : Type} {p q : γ → Bool} (hpq : ∀ c, p c = true → q c = true)
    {word piece : List γ} (hpiece : piece ∈ word.splitOnP p) (hfree : ∀ c ∈ piece, q c = false) :
    piece ∈ word.splitOnP q := by
  obtain ⟨head, tail, hsplit⟩ := List.exists_cons_of_ne_nil (List.splitOnP_ne_nil p word)
  obtain ⟨head', tail', hsplit'⟩ := List.exists_cons_of_ne_nil (List.splitOnP_ne_nil q word)
  obtain ⟨hhead, htail⟩ := splitOnP_finer hpq word hsplit hsplit'
  rw [hsplit] at hpiece
  rw [hsplit']
  rcases List.mem_cons.mp hpiece with rfl | hpiece
  · rw [hhead hfree]
    exact List.mem_cons_self
  · exact List.mem_cons_of_mem _ (htail piece hpiece hfree)

/-! ### Alignment -/

variable {α β : Type} {f : α → Nat} {g : β → Nat} {limit : Nat}

/-- The same characters below the limit, with something else between them in the same places. -/
inductive Aligned (f : α → Nat) (g : β → Nat) (limit : Nat) : List α → List β → Prop where
  | nil : Aligned f g limit [] []
  | plain {a b xs ys} (hsame : f a = g b) (hlt : f a < limit) (rest : Aligned f g limit xs ys) :
      Aligned f g limit (a :: xs) (b :: ys)
  | wide {as bs xs ys} (hleft : as ≠ []) (hright : bs ≠ []) (hlefts : ∀ a ∈ as, limit ≤ f a)
      (hrights : ∀ b ∈ bs, limit ≤ g b) (rest : Aligned f g limit xs ys) :
      Aligned f g limit (as ++ xs) (bs ++ ys)

namespace Aligned

variable {xs : List α} {ys : List β}

theorem isEmpty_eq (h : Aligned f g limit xs ys) : xs.isEmpty = ys.isEmpty := by
  cases h with
  | nil => rfl
  | plain => rfl
  | wide hleft hright =>
      rw [List.isEmpty_eq_false_iff.mpr (List.append_ne_nil_of_left_ne_nil hleft _),
        List.isEmpty_eq_false_iff.mpr (List.append_ne_nil_of_left_ne_nil hright _)]

/-- A value below the limit is on both sides or on neither. -/
theorem mem_iff (h : Aligned f g limit xs ys) {value : Nat} (hvalue : value < limit) :
    value ∈ xs.map f ↔ value ∈ ys.map g := by
  induction h with
  | nil => exact Iff.rfl
  | plain hsame hlt rest ih =>
      rw [List.map_cons, List.map_cons, List.mem_cons, List.mem_cons, hsame, ih]
  | @wide as bs xs ys hleft hright hlefts hrights rest ih =>
      have hnotLeft : value ∉ as.map f := by
        intro hmem
        obtain ⟨a, ha, rfl⟩ := List.mem_map.mp hmem
        exact absurd hvalue (Nat.not_lt.mpr (hlefts a ha))
      have hnotRight : value ∉ bs.map g := by
        intro hmem
        obtain ⟨b, hb, rfl⟩ := List.mem_map.mp hmem
        exact absurd hvalue (Nat.not_lt.mpr (hrights b hb))
      rw [List.map_append, List.map_append, List.mem_append, List.mem_append, or_iff_right hnotLeft,
        or_iff_right hnotRight, ih]

/-- The first unit is either the same on both sides, or of no interest on either. -/
theorem cases_cons {a : α} {b : β} (h : Aligned f g limit (a :: xs) (b :: ys)) :
    f a = g b ∧ f a < limit ∧ Aligned f g limit xs ys ∨ limit ≤ f a ∧ limit ≤ g b := by
  generalize hxs : a :: xs = left at h
  generalize hys : b :: ys = right at h
  cases h with
  | nil => exact absurd hxs (List.cons_ne_nil a xs)
  | plain hsame hlt rest =>
      injection hxs with ha hxs
      injection hys with hb hys
      subst ha hb hxs hys
      exact .inl ⟨hsame, hlt, rest⟩
  | @wide as bs _ _ hleft hright hlefts hrights rest =>
      obtain ⟨a', as, rfl⟩ := List.exists_cons_of_ne_nil hleft
      obtain ⟨b', bs, rfl⟩ := List.exists_cons_of_ne_nil hright
      injection hxs with ha hxs
      injection hys with hb hys
      subst ha hb
      exact .inr ⟨hlefts a List.mem_cons_self, hrights b List.mem_cons_self⟩

/-- What stands in front is a value below the limit on both sides or on neither. -/
theorem head_iff (h : Aligned f g limit xs ys) {value : Nat} (hvalue : value < limit) :
    xs.head?.map f = some value ↔ ys.head?.map g = some value := by
  have hempty := h.isEmpty_eq
  cases xs with
  | nil =>
      cases ys with
      | nil => exact Iff.rfl
      | cons b ys => exact absurd hempty Bool.noConfusion
  | cons a xs =>
      cases ys with
      | nil => exact absurd hempty Bool.noConfusion
      | cons b ys =>
          rw [List.head?_cons, List.head?_cons, Option.map_some, Option.map_some, Option.some_inj,
            Option.some_inj]
          rcases h.cases_cons with ⟨hsame, -, -⟩ | ⟨hleft, hright⟩
          · rw [hsame]
          · exact iff_of_false (by omega) (by omega)

/-- And so is a word of such values. -/
theorem map_eq_iff (h : Aligned f g limit xs ys) {word : List Nat}
    (hword : ∀ value ∈ word, value < limit) : xs.map f = word ↔ ys.map g = word := by
  induction word generalizing xs ys with
  | nil =>
      rw [List.map_eq_nil_iff, List.map_eq_nil_iff, ← List.isEmpty_iff, ← List.isEmpty_iff,
        h.isEmpty_eq]
  | cons value word ih =>
      have hempty := h.isEmpty_eq
      cases xs with
      | nil =>
          cases ys with
          | nil => exact Iff.rfl
          | cons b ys => exact absurd hempty Bool.noConfusion
      | cons a xs =>
          cases ys with
          | nil => exact absurd hempty Bool.noConfusion
          | cons b ys =>
              have hvalue := hword value List.mem_cons_self
              rw [List.map_cons, List.map_cons, List.cons_eq_cons, List.cons_eq_cons]
              rcases h.cases_cons with ⟨hsame, -, hrest⟩ | ⟨hleft, hright⟩
              · rw [hsame, ih hrest fun other hother => hword other (List.mem_cons_of_mem _ hother)]
              · exact iff_of_false (fun heq => by omega) fun heq => by omega

/-- The pieces between the same values below the limit are aligned one by one. -/
theorem splitOnP (h : Aligned f g limit xs ys) {p : α → Bool} {q : β → Bool}
    (hsame : ∀ a b, f a = g b → p a = q b) (hp : ∀ a, limit ≤ f a → p a = false)
    (hq : ∀ b, limit ≤ g b → q b = false) :
    List.Forall₂ (Aligned f g limit) (xs.splitOnP p) (ys.splitOnP q) := by
  induction h with
  | nil => exact .cons .nil .nil
  | @plain a b xs ys hvalue hlt rest ih =>
      rw [List.splitOnP_cons_eq_if_modifyHead, List.splitOnP_cons_eq_if_modifyHead,
        hsame _ _ hvalue]
      generalize xs.splitOnP p = left at ih
      generalize ys.splitOnP q = right at ih
      split
      · exact .cons .nil ih
      · cases ih with
        | nil => exact .nil
        | cons hhead htail => exact .cons (.plain hvalue hlt hhead) htail
  | @wide as bs xs ys hleft hright hlefts hrights rest ih =>
      rw [splitOnP_append (fun a ha => hp a (hlefts a ha)),
        splitOnP_append (fun b hb => hq b (hrights b hb))]
      generalize xs.splitOnP p = left at ih
      generalize ys.splitOnP q = right at ih
      cases ih with
      | nil => exact .nil
      | cons hhead htail => exact .cons (.wide hleft hright hlefts hrights hhead) htail

end Aligned

end CodeUnits
