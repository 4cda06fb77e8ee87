/-
LZW coding, over any alphabet.

Both sides build the same table of phrases, the encoder one phrase ahead: with a code it
already knows the letter behind the phrase, and the decoder learns that letter from the
next code.  So the next code may stand for the phrase the decoder is about to learn, and
that is the one case in which it has to make the phrase up from the previous one
(`phraseOf`).  A table that is full stays as it is, until a code of its own clears it.

The encoder takes the longest phrase it can, letter by letter, and clears the table between
the pieces of its input.  The decoder does not rely on that: it says what any sequence of
codes stands for, if it stands for anything.
-/
import Mathlib.Data.List.Basic

namespace Lzw

/-- A letter, a phrase of the table by its place there, or the end of the table. -/
inductive Code (α : Type)
  | literal (letter : α)
  | entry (index : Nat)
  | clear
  deriving DecidableEq, Repr

/-- The phrases that have been added, in this order. -/
abbrev Table (α : Type) := List (List α)

variable {α : Type}

/-- One phrase more, as long as there is room for it. -/
def Table.add (capacity : Nat) (table : Table α) (phrase : List α) : Table α :=
  if table.length < capacity then table ++ [phrase] else table

theorem Table.length_add (capacity : Nat) (table : Table α) (phrase : List α) :
    (table.add capacity phrase).length
      = if table.length < capacity then table.length + 1 else table.length := by
  unfold Table.add
  split
  · exact List.length_append
  · rfl

/-! ### Decoding -/

/-- What a code stands for behind the phrase of the previous code, if there is one. -/
def phraseOf (capacity : Nat) (table : Table α) : Option (List α) → Code α → Option (List α)
  | _, .literal letter => some [letter]
  | some previous, .entry index =>
      if index = table.length ∧ index < capacity then some (previous ++ previous.take 1)
      else table[index]?
  | none, .entry _ => none
  | _, .clear => none

/-- The table with what a phrase says of the one before it. -/
def learn (capacity : Nat) (table : Table α) (phrase : List α) : Option (List α) → Table α
  | some previous => table.add capacity (previous ++ phrase.take 1)
  | none => table

/-- What codes stand for behind the phrase of the previous code. -/
def decodeFrom (capacity : Nat) : Table α → Option (List α) → List (Code α) → Option (List α)
  | _, _, [] => some []
  | _, _, .clear :: rest => decodeFrom capacity [] none rest
  | table, previous, code :: rest => do
      let phrase ← phraseOf capacity table previous code
      let letters ← decodeFrom capacity (learn capacity table phrase previous) (some phrase) rest
      pure (phrase ++ letters)

/-- What codes stand for. -/
def decode (capacity : Nat) (codes : List (Code α)) : Option (List α) :=
  decodeFrom capacity [] none codes

theorem decodeFrom_phrase {capacity : Nat} {table : Table α} {previous : Option (List α)}
    {code : Code α} {phrase : List α} {rest : List (Code α)}
    (h : phraseOf capacity table previous code = some phrase) :
    decodeFrom capacity table previous (code :: rest)
      = (phrase ++ ·) <$> decodeFrom capacity (learn capacity table phrase previous) (some phrase) rest := by
  have hclear : code ≠ .clear := by
    rintro rfl
    cases previous <;> cases h
  rw [decodeFrom, h]
  · show (decodeFrom capacity (learn capacity table phrase previous) (some phrase) rest).bind _ = _
    cases decodeFrom capacity (learn capacity table phrase previous) (some phrase) rest <;> rfl
  · exact hclear

/-- A code that stands for something stands for a phrase, and the rest for what comes behind it. -/
theorem decodeFrom_eq_some {capacity : Nat} {table : Table α} {previous : Option (List α)}
    {code : Code α} {rest : List (Code α)} {letters : List α} (hcode : code ≠ .clear)
    (h : decodeFrom capacity table previous (code :: rest) = some letters) :
    ∃ phrase more, phraseOf capacity table previous code = some phrase ∧
      decodeFrom capacity (learn capacity table phrase previous) (some phrase) rest = some more ∧
      phrase ++ more = letters := by
  cases hphrase : phraseOf capacity table previous code with
  | none =>
      rw [decodeFrom, hphrase] at h
      · cases h
      · exact hcode
  | some phrase =>
      rw [decodeFrom_phrase hphrase] at h
      obtain ⟨more, hmore, heq⟩ := Option.map_eq_some_iff.mp h
      exact ⟨phrase, more, rfl, hmore, heq⟩

/-! ### Encoding -/

section Encoding

variable [DecidableEq α]

/-- The code of a phrase that the table has. -/
def codeOf (table : Table α) : List α → Code α
  | [letter] => .literal letter
  | phrase => .entry (table.idxOf phrase)

/-- The codes of a phrase and the letters behind it. -/
def encodeFrom (capacity : Nat) : Table α → (phrase : List α) → List α → List (Code α)
  | table, phrase, [] => [codeOf table phrase]
  | table, phrase, letter :: rest =>
      if phrase ++ [letter] ∈ table then
        encodeFrom capacity table (phrase ++ [letter]) rest
      else
        codeOf table phrase
          :: encodeFrom capacity (table.add capacity (phrase ++ [letter])) [letter] rest

/-- The codes of letters in a new table. -/
def encodePiece (capacity : Nat) : List α → List (Code α)
  | [] => []
  | letter :: rest => encodeFrom capacity [] [letter] rest

/-- The codes of pieces, with the table cleared between them. -/
def encode (capacity : Nat) : List (List α) → List (Code α)
  | [] => []
  | piece :: rest =>
      encodePiece capacity piece ++ rest.flatMap fun piece => .clear :: encodePiece capacity piece

/-- The phrase has a code. -/
def Known (table : Table α) (phrase : List α) : Prop :=
  (∃ letter, phrase = [letter]) ∨ phrase ∈ table

theorem codeOf_of_mem {table : Table α} {phrase : List α} (h : ∀ letter, phrase ≠ [letter]) :
    codeOf table phrase = .entry (table.idxOf phrase) := by
  unfold codeOf
  split
  · exact absurd rfl (h _)
  · rfl

theorem codeOf_ne_clear (table : Table α) (phrase : List α) : codeOf table phrase ≠ .clear := by
  unfold codeOf
  split <;> simp

/-- Within a piece the table is not cleared. -/
theorem clear_notMem_encodeFrom (capacity : Nat) (rest : List α) : ∀ table phrase,
    .clear ∉ encodeFrom capacity table phrase rest := by
  induction rest with
  | nil =>
      intro table phrase h
      exact codeOf_ne_clear table phrase (List.mem_singleton.mp h).symm
  | cons letter rest ih =>
      intro table phrase h
      rw [encodeFrom] at h
      split at h
      · exact ih _ _ h
      · rcases List.mem_cons.mp h with heq | hmem
        · exact codeOf_ne_clear table phrase heq.symm
        · exact ih _ _ hmem

theorem clear_notMem_encodePiece (capacity : Nat) (piece : List α) :
    .clear ∉ encodePiece capacity piece := by
  cases piece with
  | nil => exact List.not_mem_nil
  | cons letter rest => exact clear_notMem_encodeFrom capacity rest _ _

/-- **The code of a phrase** is read as that phrase, with the table one phrase behind. -/
theorem phraseOf_codeOf {capacity : Nat} {table : Table α} {previous phrase : List α}
    (hprevious : previous ≠ [])
    (hknown : Known (table.add capacity (previous ++ phrase.take 1)) phrase) :
    phraseOf capacity table (some previous)
        (codeOf (table.add capacity (previous ++ phrase.take 1)) phrase) = some phrase := by
  by_cases hletter : ∃ letter, phrase = [letter]
  · obtain ⟨letter, rfl⟩ := hletter
    rfl
  · have hmem := hknown.resolve_left hletter
    rw [codeOf_of_mem (not_exists.mp hletter)]
    have hindex := List.getElem?_idxOf hmem
    have hlt := List.idxOf_lt_length_of_mem hmem
    rw [Table.length_add] at hlt
    generalize (table.add capacity (previous ++ phrase.take 1)).idxOf phrase = index at hindex hlt
    rw [phraseOf]
    by_cases hroom : table.length < capacity
    · rw [if_pos hroom] at hlt
      rw [Table.add, if_pos hroom] at hindex
      by_cases hlast : index = table.length
      · -- the phrase is the one the decoder is about to learn, so it begins as the previous one does
        subst hlast
        rw [List.getElem?_append_right (Nat.le_refl _), Nat.sub_self] at hindex
        have hphrase : previous ++ phrase.take 1 = phrase := Option.some.inj hindex
        have htake : phrase.take 1 = previous.take 1 := by
          obtain ⟨letter, rest, rfl⟩ := List.exists_cons_of_ne_nil hprevious
          rw [← hphrase]
          rfl
        rw [if_pos ⟨rfl, hroom⟩, ← htake, hphrase]
      · rw [if_neg fun h => hlast h.1]
        rwa [List.getElem?_append_left (by omega)] at hindex
    · rw [if_neg hroom] at hlt
      rw [Table.add, if_neg hroom] at hindex
      rw [if_neg (by omega), hindex]

/-- By induction on the letters: a phrase that is made longer begins as it did, so the table of the
decoder stays one phrase behind. -/
theorem decodeFrom_encodeFrom {capacity : Nat} {more : List (Code α)} {behind : List α}
    (hmore : ∀ table previous, decodeFrom capacity table previous more = some behind) (rest : List α) :
    ∀ {table : Table α} {previous phrase : List α}, previous ≠ [] → phrase ≠ [] →
      Known (table.add capacity (previous ++ phrase.take 1)) phrase →
      decodeFrom capacity table (some previous)
          (encodeFrom capacity (table.add capacity (previous ++ phrase.take 1)) phrase rest ++ more)
        = some (phrase ++ (rest ++ behind)) := by
  induction rest with
  | nil =>
      intro table previous phrase hprevious _ hknown
      rw [encodeFrom, List.singleton_append, decodeFrom_phrase (phraseOf_codeOf hprevious hknown), hmore]
      rfl
  | cons letter rest ih =>
      intro table previous phrase hprevious hphrase hknown
      have htake : (phrase ++ [letter]).take 1 = phrase.take 1 := by
        obtain ⟨first, more, rfl⟩ := List.exists_cons_of_ne_nil hphrase
        rfl
      rw [encodeFrom]
      by_cases hlonger : phrase ++ [letter] ∈ table.add capacity (previous ++ phrase.take 1)
      · have hstep := @ih table previous (phrase ++ [letter]) hprevious (by simp)
          (Or.inr (by rwa [htake]))
        rw [htake, List.append_assoc] at hstep
        rw [if_pos hlonger]
        exact hstep
      · generalize hnext : table.add capacity (previous ++ phrase.take 1) = next at *
        have hstep : decodeFrom capacity next (some phrase)
            (encodeFrom capacity (next.add capacity (phrase ++ [letter])) [letter] rest ++ more)
            = some (letter :: (rest ++ behind)) := ih hphrase (by simp) (Or.inl ⟨letter, rfl⟩)
        have hcode : phraseOf capacity table (some previous) (codeOf next phrase) = some phrase := by
          rw [← hnext] at hknown ⊢
          exact phraseOf_codeOf hprevious hknown
        rw [if_neg hlonger, List.cons_append, decodeFrom_phrase hcode, learn, hnext, hstep]
        rfl

/-- A piece is decoded whatever comes behind it, as long as that starts with a table of its own. -/
theorem decodeFrom_encodePiece {capacity : Nat} {more : List (Code α)} {behind : List α}
    (hmore : ∀ table previous, decodeFrom capacity table previous more = some behind)
    (piece : List α) :
    decodeFrom capacity [] none (encodePiece capacity piece ++ more) = some (piece ++ behind) := by
  match piece with
  | [] => exact hmore [] none
  | [letter] =>
      show decodeFrom capacity [] none (.literal letter :: more) = _
      rw [decodeFrom_phrase rfl, hmore]
      rfl
  | letter :: next :: rest =>
      have hstep : decodeFrom capacity [] (some [letter])
          (encodeFrom capacity (Table.add capacity [] ([letter] ++ [next])) [next] rest ++ more)
          = some (next :: (rest ++ behind)) :=
        decodeFrom_encodeFrom hmore rest (by simp) (by simp) (Or.inl ⟨next, rfl⟩)
      show decodeFrom capacity [] none (.literal letter :: (_ ++ more)) = _
      rw [decodeFrom_phrase rfl, learn, hstep]
      rfl

theorem decodeFrom_pieces (capacity : Nat) (pieces : List (List α)) : ∀ table previous,
    decodeFrom capacity table previous (pieces.flatMap fun piece => .clear :: encodePiece capacity piece)
      = some pieces.flatten := by
  induction pieces with
  | nil => exact fun table previous => rfl
  | cons piece rest ih =>
      intro table previous
      rw [List.flatMap_cons, List.cons_append, decodeFrom]
      exact decodeFrom_encodePiece ih piece

/-- **What is encoded is decoded again**, whatever the room in the table and wherever it is cleared. -/
theorem decode_encode (capacity : Nat) (pieces : List (List α)) :
    decode capacity (encode capacity pieces) = some pieces.flatten := by
  cases pieces with
  | nil => rfl
  | cons piece rest => exact decodeFrom_encodePiece (decodeFrom_pieces capacity rest) piece

end Encoding

end Lzw
